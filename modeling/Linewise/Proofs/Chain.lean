/-
  Switches, and the chains of branches they become.

  A switch runs the first clause that fits, and the next one for as long as bodies fall through. The
  chain that stands for it is a flat list of heads, braces, jumps and labels, run by a machine that
  knows no switch. The two do the same, whatever the tests answer.
-/
import Linewise.Name
import Linewise.Proofs.Lines

namespace Linewise

open Text List

variable {cs rest : Clauses} {a x program : List Cpp} {n : Nat} {body : Body} {waiting : Option Text}

/-! ## 1. Switches -/

mutual

/-- The clauses of a switch, each under a mark of its own. The clause without values is the last one. -/
inductive Clauses where
  | none
  | default (mark : Nat) (body : Body)
  | case (mark : Nat) (parts : List Text) (body : Body) (falls : Bool) (rest : Clauses)

/-- What stands in a clause: statements, each as its lines, and switches with their heads. -/
inductive Body where
  | done
  | statement (texts : List Text) (rest : Body)
  | switch (init : Option Text) (tag : Text) (clauses : Clauses) (rest : Body)

end

/-- What a run does, one after the other. -/
inductive Event where
  /-- an initialization -/
  | init (clause : Text)
  /-- the value of a switch is bound to a name -/
  | bind (name tag : Text)
  /-- a test, and its answer -/
  | test (text : Text) (answer : Bool)
  /-- the body of a clause is entered -/
  | body (mark : Nat)
  | statement (texts : List Text)
  deriving DecidableEq, Repr

/-- An answer to every test, which may depend on all that was done before. -/
abbrev Oracle := List Event → Text → Bool

/-- The tests one after the other, up to the first that holds. -/
def evaluate (ρ : Oracle) (trace : List Event) : List Text → Bool × List Event
  | [] => (false, trace)
  | t :: ts => if ρ trace t then (true, trace ++ [.test t true]) else evaluate ρ (trace ++ [.test t false]) ts

/-- The name that the value of a switch is bound to, `n` of them being in use. -/
def discriminantName (n : Nat) : Text := NameRole.switch.head ++ decimal n

/-- The label of a number. -/
def labelName (n : Nat) : Text := NameRole.label.head ++ decimal n

/-- How many names the head of a switch takes. -/
def tagCount (tag : Text) : Nat := if isAllBlank tag then 0 else 1

/-- The name the value of a switch is bound to: none if it has no value. -/
def discriminant? (n : Nat) (tag : Text) : Option Text :=
  if isAllBlank tag then none else some (discriminantName n)

/-- The tests of a clause: its values compared with the name, or the values themselves. -/
def clauseTests (discriminant : Option Text) (parts : List Text) : List Text :=
  parts.map fun p =>
    match discriminant with
    | some d => d ++ (" == " ++ trim p)
    | none => trim p

/-- What the initialization of a switch does. -/
def initEvents (init : Option Text) : List Event :=
  ((init.map trim).filter (!·.isEmpty)).toList.map .init

/-- The value of a switch is bound once, before its tests. -/
def bindEvents (n : Nat) (tag : Text) : List Event :=
  (discriminant? n tag).toList.map fun name => .bind name (trim tag)

mutual

/-- How many switches with a value stand in the clauses. -/
def Clauses.tagged : Clauses → Nat
  | .none => 0
  | .default _ body => body.tagged
  | .case _ _ body _ rest => body.tagged + rest.tagged

/-- How many switches over a value a body holds. -/
def Body.tagged : Body → Nat
  | .done => 0
  | .statement _ rest => rest.tagged
  | .switch _ tag clauses rest => tagCount tag + clauses.tagged + rest.tagged

end

mutual

/-- **What the clauses of a switch do**, tested in order, with `n` switches in front of them in the
    text. -/
def Clauses.select (ρ : Oracle) (n : Nat) (discriminant : Option Text) (trace : List Event) :
    Clauses → List Event
  | .none => trace
  | .default mark body => body.meaning ρ n (trace ++ [.body mark])
  | .case mark parts body falls rest =>
    match evaluate ρ trace (clauseTests discriminant parts) with
    | (true, trace) =>
      let trace := body.meaning ρ n (trace ++ [.body mark])
      if falls then rest.enter ρ (n + body.tagged) trace else trace
    | (false, trace) => rest.select ρ (n + body.tagged) discriminant trace

/-- The first of the clauses runs untested, because the one before it fell through. -/
def Clauses.enter (ρ : Oracle) (n : Nat) (trace : List Event) : Clauses → List Event
  | .none => trace
  | .default mark body => body.meaning ρ n (trace ++ [.body mark])
  | .case mark _ body falls rest =>
    let trace := body.meaning ρ n (trace ++ [.body mark])
    if falls then rest.enter ρ (n + body.tagged) trace else trace

/-- What a body does. -/
def Body.meaning (ρ : Oracle) (n : Nat) (trace : List Event) : Body → List Event
  | .done => trace
  | .statement texts rest => rest.meaning ρ n (trace ++ [.statement texts])
  | .switch init tag clauses rest =>
    rest.meaning ρ (n + tagCount tag + clauses.tagged)
      (clauses.select ρ (n + tagCount tag) (discriminant? n tag)
        (trace ++ initEvents init ++ bindEvents n tag))

end

/-! ## 2. Chains -/

/-- The lines of a chain. The marks stand for no line. -/
inductive Cpp where
  | init (clause : Text)
  | bind (name tag : Text)
  /-- the head of a chain, or of a further branch of it -/
  | branch (first : Bool) (tests : List Text)
  /-- a chain whose only branch is always taken -/
  | always
  | otherwise
  | close
  | goto (label : Text)
  | label (name : Text)
  | mark (mark : Nat)
  | statement (texts : List Text)
  deriving DecidableEq, Repr

namespace Cpp

/-- What a line is to the nesting of chains. -/
inductive Role where
  | opens
  | goesOn
  | closes
  | plain
  deriving DecidableEq, Repr

/-- What a line does to the nesting of branches. -/
def role : Cpp → Role
  | branch true _ | always => .opens
  | branch false _ | otherwise => .goesOn
  | close => .closes
  | _ => .plain

/-- Lines passed over inside `depth` chains, up to the next branch or the brace (`arm`), or past the
    brace. -/
def skip (arm : Bool) : Nat → List Cpp → List Cpp
  | _, [] => []
  | depth, line :: rest =>
    match line.role with
    | .opens => skip arm (depth + 1) rest
    | .goesOn => if arm && depth == 0 then line :: rest else skip arm depth rest
    | .closes => if depth == 0 then if arm then line :: rest else rest else skip arm (depth - 1) rest
    | .plain => skip arm depth rest

/-- What follows a label. -/
def target? (label : Text) : List Cpp → Option (List Cpp)
  | [] => none
  | line :: rest => if line = .label label then some rest else target? label rest

/-- The machine: the lines to run, what was done, and whether a test has failed and the next branch
    is tried. -/
structure Machine where
  trying : Bool
  rest : List Cpp
  trace : List Event
  deriving DecidableEq, Repr

/-- The tests of a branch: into it, or on to the next one. -/
def Machine.decide (ρ : Oracle) (trace : List Event) (tests : List Text) (rest : List Cpp) : Machine :=
  match evaluate ρ trace tests with
  | (true, trace) => ⟨false, rest, trace⟩
  | (false, trace) => ⟨true, skip true 0 rest, trace⟩

/-- **One line of a program.** A branch that is reached from above ends the chain. -/
def step (ρ : Oracle) (program : List Cpp) : Machine → Option Machine
  | ⟨_, [], _⟩ => none
  | ⟨true, line :: rest, trace⟩ =>
    match line with
    | branch false tests => some (Machine.decide ρ trace tests rest)
    | otherwise | close => some ⟨false, rest, trace⟩
    | _ => none
  | ⟨false, line :: rest, trace⟩ =>
    match line with
    | init clause => some ⟨false, rest, trace ++ [.init clause]⟩
    | bind name tag => some ⟨false, rest, trace ++ [.bind name tag]⟩
    | branch true tests => some (Machine.decide ρ trace tests rest)
    | always | close | label _ => some ⟨false, rest, trace⟩
    | branch false _ | otherwise => some ⟨false, skip false 0 rest, trace⟩
    | goto name => (target? name program).map (⟨false, ·, trace⟩)
    | mark m => some ⟨false, rest, trace ++ [.body m]⟩
    | statement texts => some ⟨false, rest, trace ++ [.statement texts]⟩

/-- Some steps lead from one state of the machine to the other. -/
inductive Reaches (ρ : Oracle) (program : List Cpp) : Machine → Machine → Prop where
  | refl (m : Machine) : Reaches ρ program m m
  | head {m m' m'' : Machine} (h : step ρ program m = some m') (hs : Reaches ρ program m' m'') :
      Reaches ρ program m m''

end Cpp

/-! ## 3. The chain of a switch -/

/-- The lines the head of a switch becomes. -/
def headCode (n : Nat) (init : Option Text) (tag : Text) : List Cpp :=
  ((init.map trim).filter (!·.isEmpty)).toList.map .init
    ++ (discriminant? n tag).toList.map fun name => .bind name (trim tag)

/-- The label behind a header, if a jump waits for it. -/
def labelCode : Option Text → List Cpp
  | some label => [.label label]
  | none => []

/-- The jump at the end of a body that falls through. -/
def jumpCode (l : Nat) (falls : Bool) : List Cpp := if falls then [.goto (labelName l)] else []

/-- The label that waits for the next clause. -/
def awaited (l : Nat) (falls : Bool) : Option Text := if falls then some (labelName l) else none

/-- How many jumps a clause ends with. -/
def fallCount (falls : Bool) : Nat := if falls then 1 else 0

/-- The brace of a switch closes the last branch; without clauses there is none. -/
def closeCode : Clauses → List Cpp
  | .none => []
  | _ => [.close]

/-- The header of the first of the clauses. -/
def Clauses.header (first : Bool) (discriminant : Option Text) : Clauses → List Cpp
  | .none => []
  | .default .. => [if first then .always else .otherwise]
  | .case _ parts .. => [.branch first (clauseTests discriminant parts)]

/-- The label that the first of the clauses takes. -/
def Clauses.takes (waiting : Option Text) : Clauses → Option Text
  | .none => .none
  | _ => waiting

theorem Clauses.takes_none (cs : Clauses) : cs.takes Option.none = Option.none := by
  cases cs <;> rfl

theorem Clauses.mem_of_mem_takes {name : Text} (h : name ∈ cs.takes waiting) : name ∈ waiting := by
  cases cs with
  | none => cases h
  | _ => exact h

/-- The label that still waits behind the clauses: only where there are none. -/
def Clauses.leaves (waiting : Option Text) : Clauses → Option Text
  | .none => waiting
  | _ => .none

mutual

/-- How many jumps stand in the clauses. -/
def Clauses.jumps : Clauses → Nat
  | .none => 0
  | .default _ body => body.jumps
  | .case _ _ body falls rest => body.jumps + fallCount falls + rest.jumps

/-- How many jumps a body holds. -/
def Body.jumps : Body → Nat
  | .done => 0
  | .statement _ rest => rest.jumps
  | .switch _ _ clauses rest => clauses.jumps + rest.jumps

end

mutual

/-- **The lines of the clauses** behind the first header and its label, with `n` names and `l`
    labels in use. -/
def Clauses.code (n l : Nat) (discriminant : Option Text) : Clauses → List Cpp
  | .none => []
  | .default mark body => .mark mark :: body.code n l
  | .case mark _ body falls rest =>
    .mark mark :: (body.code n l ++ (jumpCode (l + body.jumps) falls ++ (rest.header false discriminant
      ++ (labelCode (awaited (l + body.jumps) falls)
        ++ rest.code (n + body.tagged) (l + body.jumps + fallCount falls) discriminant))))

/-- The lines of a body. -/
def Body.code (n l : Nat) : Body → List Cpp
  | .done => []
  | .statement texts rest => .statement texts :: rest.code n l
  | .switch init tag clauses rest =>
    headCode n init tag ++ (clauses.header true (discriminant? n tag)
      ++ (clauses.code (n + tagCount tag) l (discriminant? n tag) ++ (closeCode clauses
        ++ rest.code (n + tagCount tag + clauses.tagged) (l + clauses.jumps))))

end

/-- **The lines of a whole switch**, with a label that waits for its first clause or none. -/
def switchCode (n l : Nat) (waiting : Option Text) (init : Option Text) (tag : Text) (cs : Clauses) :
    List Cpp :=
  headCode n init tag ++ (cs.header true (discriminant? n tag) ++ (labelCode (cs.takes waiting)
    ++ (cs.code (n + tagCount tag) l (discriminant? n tag) ++ closeCode cs)))

theorem Body.code_switch (n l : Nat) (init : Option Text) (tag : Text) (cs : Clauses) (rest : Body) :
    Body.code n l (.switch init tag cs rest) = switchCode n l none init tag cs
      ++ rest.code (n + tagCount tag + cs.tagged) (l + cs.jumps) := by
  simp only [Body.code, switchCode, Clauses.takes_none, labelCode, nil_append, append_assoc]

mutual

/-- A body falls through only if a clause follows. -/
def Clauses.Falls : Clauses → Prop
  | .none => True
  | .default _ body => body.Falls
  | .case _ _ body falls rest => body.Falls ∧ (falls = true → rest ≠ .none) ∧ rest.Falls

/-- No last clause falls through. -/
def Body.Falls : Body → Prop
  | .done => True
  | .statement _ rest => rest.Falls
  | .switch _ _ clauses rest => clauses.Falls ∧ rest.Falls

end

/-! ## 4. Passing over lines -/

namespace Cpp

theorem skip_cons_plain {line : Cpp} (h : line.role = .plain) (arm : Bool) (depth : Nat) (r : List Cpp) :
    skip arm depth (line :: r) = skip arm depth r := by
  rw [skip, h]

theorem skip_plain {arm : Bool} {depth : Nat} (h : ∀ line ∈ a, line.role = .plain) (r : List Cpp) :
    skip arm depth (a ++ r) = skip arm depth r := by
  induction a with
  | nil => rfl
  | cons line a ih =>
    rw [cons_append, skip_cons_plain (h line mem_cons_self)]
    exact ih (forall_mem_cons.mp h).2

theorem mem_headCode {init : Option Text} {tag : Text} {line : Cpp} (h : line ∈ headCode n init tag) :
    (∃ clause, line = .init clause) ∨ ∃ name, line = .bind name (trim tag) := by
  rcases mem_append.mp h with h | h
  · obtain ⟨clause, _, rfl⟩ := mem_map.mp h
    exact .inl ⟨clause, rfl⟩
  · obtain ⟨name, _, rfl⟩ := mem_map.mp h
    exact .inr ⟨name, rfl⟩

theorem role_headCode (n : Nat) (init : Option Text) (tag : Text) :
    ∀ line ∈ headCode n init tag, line.role = .plain := by
  intro line hl
  rcases mem_headCode hl with ⟨clause, rfl⟩ | ⟨name, rfl⟩ <;> rfl

theorem role_labelCode (label : Option Text) : ∀ line ∈ labelCode label, line.role = .plain := by
  cases label <;> simp [labelCode, role]

theorem role_jumpCode (l : Nat) (falls : Bool) : ∀ line ∈ jumpCode l falls, line.role = .plain := by
  cases falls <;> simp [jumpCode, role]

theorem skip_first (h : cs ≠ .none) (arm : Bool) (depth : Nat) (d : Option Text) (r : List Cpp) :
    skip arm depth (cs.header true d ++ r) = skip arm (depth + 1) r := by
  cases cs with
  | none => exact absurd rfl h
  | _ => rfl

theorem skip_close (h : cs ≠ .none) (arm : Bool) (depth : Nat) (r : List Cpp) :
    skip arm (depth + 1) (closeCode cs ++ r) = skip arm depth r := by
  cases cs with
  | none => exact absurd rfl h
  | _ => rfl

theorem skip_header {arm : Bool} {depth : Nat} (h : arm = false ∨ depth ≠ 0) (cs : Clauses)
    (d : Option Text) (r : List Cpp) : skip arm depth (cs.header false d ++ r) = skip arm depth r := by
  have hno : (arm && depth == 0) = false := by
    rcases h with rfl | h
    · rfl
    · rw [beq_eq_false_iff_ne.mpr h, Bool.and_false]
  cases cs with
  | none => rfl
  | _ => exact if_neg (Bool.eq_false_iff.mp hno)

end Cpp

mutual

theorem Clauses.skip_code {arm : Bool} {depth : Nat} (h : arm = false ∨ depth ≠ 0) (n l : Nat)
    (d : Option Text) (r : List Cpp) :
    ∀ cs : Clauses, Cpp.skip arm depth (cs.code n l d ++ r) = Cpp.skip arm depth r
  | .none => rfl
  | .default mark body => by
    rw [Clauses.code, cons_append, Cpp.skip_cons_plain rfl]
    exact Body.skip_code n l r body
  | .case mark parts body falls rest => by
    rw [Clauses.code, cons_append, Cpp.skip_cons_plain rfl]
    simp only [append_assoc]
    rw [Body.skip_code n l _ body, Cpp.skip_plain (Cpp.role_jumpCode _ _), Cpp.skip_header h,
      Cpp.skip_plain (Cpp.role_labelCode _), Clauses.skip_code h _ _ _ _ rest]

theorem Body.skip_code {arm : Bool} {depth : Nat} (n l : Nat) (r : List Cpp) :
    ∀ b : Body, Cpp.skip arm depth (b.code n l ++ r) = Cpp.skip arm depth r
  | .done => rfl
  | .statement texts rest => by
    rw [Body.code, cons_append, Cpp.skip_cons_plain rfl]
    exact Body.skip_code n l r rest
  | .switch init tag clauses rest => by
    rw [Body.code]
    simp only [append_assoc]
    rw [Cpp.skip_plain (Cpp.role_headCode _ _ _)]
    by_cases hne : clauses = .none
    · rw [hne]
      exact Body.skip_code _ _ r rest
    · rw [Cpp.skip_first hne arm depth, Clauses.skip_code (.inr (Nat.succ_ne_zero depth)) _ _ _ _ clauses,
        Cpp.skip_close hne, Body.skip_code _ _ r rest]

end

/-! ## 5. Runs of the machine -/

namespace Cpp

theorem Reaches.trans {ρ : Oracle} {a b c : Machine} (h : Reaches ρ program a b) (h' : Reaches ρ program b c) :
    Reaches ρ program a c := by
  induction h with
  | refl m => exact h'
  | head hs _ ih => exact .head hs (ih h')

/-- The labels that the lines place. -/
def labels : List Cpp → List Text
  | [] => []
  | .label name :: rest => name :: labels rest
  | _ :: rest => labels rest

theorem labels_append (a b : List Cpp) : labels (a ++ b) = labels a ++ labels b := by
  induction a with
  | nil => rfl
  | cons line a ih => cases line <;> simp [labels, ih]

theorem target?_eq {r : List Cpp} {name : Text} (hn : (labels program).Nodup) (h : .label name :: r <:+ program) :
    target? name program = some r := by
  obtain ⟨pre, rfl⟩ := h
  have hno : name ∉ labels pre := by
    intro hmem
    rw [labels_append] at hn
    exact (nodup_append.mp hn).2.2 name hmem name mem_cons_self rfl
  clear hn
  induction pre with
  | nil => exact if_pos rfl
  | cons line pre ih =>
    have hline : line ≠ .label name := by
      rintro rfl
      exact hno mem_cons_self
    rw [cons_append, target?, if_neg hline]
    refine ih fun hmem => hno ?_
    cases line <;> simp_all [labels]

theorem reaches_headCode (ρ : Oracle) (program : List Cpp) (n : Nat) (init : Option Text) (tag : Text)
    (r : List Cpp) (h : List Event) :
    Reaches ρ program ⟨false, headCode n init tag ++ r, h⟩
      ⟨false, r, h ++ initEvents init ++ bindEvents n tag⟩ := by
  unfold headCode initEvents bindEvents
  cases (init.map trim).filter (!·.isEmpty) <;> cases discriminant? n tag <;>
    simp only [Option.toList_none, Option.toList_some, map_nil, append_nil]
  · exact .refl _
  · exact .head rfl (.refl _)
  · exact .head rfl (.refl _)
  · exact .head rfl (.head rfl (.refl _))

theorem reaches_labelCode (ρ : Oracle) (program : List Cpp) (label : Option Text) (r : List Cpp)
    (h : List Event) : Reaches ρ program ⟨false, labelCode label ++ r, h⟩ ⟨false, r, h⟩ := by
  cases label with
  | none => exact .refl _
  | some label => exact .head rfl (.refl _)

/-- The lines from a clause on, with its header, its label and the brace of the switch. -/
def fromClause (n l : Nat) (first : Bool) (d : Option Text) (label : Option Text) (cs : Clauses)
    (post : List Cpp) : List Cpp :=
  cs.header first d ++ (labelCode label ++ (cs.code n l d ++ .close :: post))

theorem skip_fromClause {label : Option Text} (hl : cs = .none → label = none) (n l : Nat) (d : Option Text)
    (post : List Cpp) :
    skip true 0 (fromClause n l false d label cs post) = fromClause n l false d label cs post := by
  cases cs with
  | none =>
    rw [hl rfl]
    rfl
  | _ => rfl

theorem reaches_behind (ρ : Oracle) (program : List Cpp) (n l : Nat) (d : Option Text) (cs : Clauses)
    (post : List Cpp) (h : List Event) :
    Reaches ρ program ⟨false, fromClause n l false d none cs post, h⟩ ⟨false, post, h⟩ := by
  have hskip : skip false 0 (cs.code n l d ++ .close :: post) = post := by
    rw [Clauses.skip_code (.inl rfl)]
    rfl
  cases cs with
  | none => exact .head rfl (.refl _)
  | _ => exact .head (congrArg (fun rest => some (Machine.mk false rest h)) hskip) (.refl _)

end Cpp

/-! ## 6. The machine does what the switch does -/

namespace Clauses

variable (ρ : Oracle) (program : List Cpp)

/-- A clause that is entered runs, and all that it falls through to. -/
def Entered (cs : Clauses) : Prop :=
  ∀ (n l : Nat) (d : Option Text) (post : List Cpp) (h : List Event), cs ≠ .none →
    cs.code n l d ++ .close :: post <:+ program →
    Cpp.Reaches ρ program ⟨false, cs.code n l d ++ .close :: post, h⟩ ⟨false, post, cs.enter ρ n h⟩

/-- The clauses that are left are tried one after the other. -/
def Tried (cs : Clauses) : Prop :=
  ∀ (n l : Nat) (d label : Option Text) (post : List Cpp) (h : List Event), (cs = .none → label = .none) →
    Cpp.fromClause n l false d label cs post <:+ program →
    Cpp.Reaches ρ program ⟨true, Cpp.fromClause n l false d label cs post, h⟩
      ⟨false, post, cs.select ρ n d h⟩

/-- All clauses of a switch. -/
def Started (cs : Clauses) : Prop :=
  ∀ (n l : Nat) (d label : Option Text) (post : List Cpp) (h : List Event), cs ≠ .none →
    Cpp.fromClause n l true d label cs post <:+ program →
    Cpp.Reaches ρ program ⟨false, Cpp.fromClause n l true d label cs post, h⟩
      ⟨false, post, cs.select ρ n d h⟩

end Clauses

/-- What a body becomes runs to its end. -/
def Body.Runs (ρ : Oracle) (program : List Cpp) (b : Body) : Prop :=
  ∀ (n l : Nat) (post : List Cpp) (h : List Event), b.code n l ++ post <:+ program →
    Cpp.Reaches ρ program ⟨false, b.code n l ++ post, h⟩ ⟨false, post, b.meaning ρ n h⟩

section Simulation

variable {ρ : Oracle} {program : List Cpp}

theorem suffix_of_append {b : List Cpp} (h : a ++ b <:+ program) : b <:+ program :=
  (suffix_append a b).trans h

theorem Clauses.entered_default {mark : Nat} (hb : body.Runs ρ program) :
    Clauses.Entered ρ program (.default mark body) := by
  intro n l d post h _ hsuf
  have hbody : body.code n l ++ .close :: post <:+ program := (suffix_cons _ _).trans hsuf
  refine .head rfl ((hb n l (.close :: post) (h ++ [.body mark]) hbody).trans ?_)
  exact .head rfl (.refl _)

theorem Clauses.code_case (mark n l : Nat) (parts : List Text) (falls : Bool) (d : Option Text) (post : List Cpp) :
    Clauses.code n l d (.case mark parts body falls rest) ++ .close :: post
      = .mark mark :: (body.code n l ++ (jumpCode (l + body.jumps) falls
        ++ Cpp.fromClause (n + body.tagged) (l + body.jumps + fallCount falls) false d
          (awaited (l + body.jumps) falls) rest post)) := by
  simp [Clauses.code, Cpp.fromClause]

theorem Clauses.entered_case {mark : Nat} {parts : List Text} {falls : Bool} (hnodup : (Cpp.labels program).Nodup)
    (hb : body.Runs ρ program) (hfalls : falls = true → rest ≠ .none) (hr : rest.Entered ρ program) :
    Clauses.Entered ρ program (.case mark parts body falls rest) := by
  intro n l d post h _ hsuf
  rw [Clauses.code_case] at hsuf ⊢
  have hbody := (suffix_cons _ _).trans hsuf
  refine .head rfl ((hb n l _ (h ++ [.body mark]) hbody).trans ?_)
  cases falls with
  | false => exact Cpp.reaches_behind ρ program _ _ d rest post _
  | true =>
    have hlabel : .label (labelName (l + body.jumps))
        :: (rest.code (n + body.tagged) (l + body.jumps + 1) d ++ .close :: post) <:+ program :=
      suffix_of_append (suffix_of_append (suffix_of_append hbody))
    have hjump : Cpp.step ρ program
        ⟨false, jumpCode (l + body.jumps) true ++ Cpp.fromClause (n + body.tagged)
          (l + body.jumps + fallCount true) false d (awaited (l + body.jumps) true) rest post,
          body.meaning ρ n (h ++ [.body mark])⟩
        = some ⟨false, rest.code (n + body.tagged) (l + body.jumps + 1) d ++ .close :: post,
            body.meaning ρ n (h ++ [.body mark])⟩ := by
      show (Cpp.target? (labelName (l + body.jumps)) program).map _ = _
      rw [Cpp.target?_eq hnodup hlabel]
      rfl
    exact .head hjump (hr _ _ d post _ (hfalls rfl) ((suffix_cons _ _).trans hlabel))

theorem Clauses.reaches_decide {mark : Nat} {parts : List Text} {falls : Bool}
    (hfalls : falls = true → rest ≠ .none) (he : Clauses.Entered ρ program (.case mark parts body falls rest))
    (hr : rest.Tried ρ program) {l : Nat} {d label : Option Text} {post : List Cpp} {h : List Event}
    (hsuf : Clauses.code n l d (.case mark parts body falls rest) ++ .close :: post <:+ program) :
    Cpp.Reaches ρ program (Cpp.Machine.decide ρ h (clauseTests d parts) (labelCode label
        ++ (Clauses.code n l d (.case mark parts body falls rest) ++ .close :: post)))
      ⟨false, post, Clauses.select ρ n d h (.case mark parts body falls rest)⟩ := by
  unfold Cpp.Machine.decide Clauses.select
  cases evaluate ρ h (clauseTests d parts) with
  | mk answer h' =>
    cases answer with
    | true =>
      exact (Cpp.reaches_labelCode ρ program label _ h').trans (he n l d post h' (by simp) hsuf)
    | false =>
      have hlabel : rest = .none → awaited (l + body.jumps) falls = .none := by
        intro hrest
        cases falls with
        | false => rfl
        | true => exact absurd hrest (hfalls rfl)
      simp only
      rw [Cpp.skip_plain (Cpp.role_labelCode label), Clauses.code_case, Cpp.skip_cons_plain rfl, Body.skip_code,
        Cpp.skip_plain (Cpp.role_jumpCode _ _), Cpp.skip_fromClause hlabel]
      rw [Clauses.code_case] at hsuf
      exact hr _ _ d _ post h' hlabel
        (suffix_of_append (suffix_of_append ((suffix_cons _ _).trans hsuf)))

/-- Its head, then its clauses, then on behind its brace. -/
theorem Clauses.Started.switch (hs : cs.Started ρ program) {l : Nat}
    {init : Option Text} {tag : Text} {post : List Cpp}
    (hsuf : switchCode n l waiting init tag cs ++ post <:+ program) (h : List Event) :
    Cpp.Reaches ρ program ⟨false, switchCode n l waiting init tag cs ++ post, h⟩
      ⟨false, post, cs.select ρ (n + tagCount tag) (discriminant? n tag)
        (h ++ initEvents init ++ bindEvents n tag)⟩ := by
  unfold switchCode at hsuf ⊢
  rw [append_assoc] at hsuf ⊢
  refine (Cpp.reaches_headCode ρ program n init tag _ h).trans ?_
  by_cases hne : cs = .none
  · rw [hne]
    exact .refl _
  · have hshape : cs.header true (discriminant? n tag) ++ (labelCode (cs.takes waiting)
          ++ (cs.code (n + tagCount tag) l (discriminant? n tag) ++ closeCode cs)) ++ post
        = Cpp.fromClause (n + tagCount tag) l true (discriminant? n tag) (cs.takes waiting) cs post := by
      cases cs with
      | none => exact absurd rfl hne
      | _ => simp [Cpp.fromClause, closeCode]
    rw [hshape] at hsuf ⊢
    exact hs _ _ _ _ post _ hne (suffix_of_append hsuf)

mutual

theorem Clauses.reaches (hnodup : (Cpp.labels program).Nodup) :
    ∀ cs : Clauses, cs.Falls → cs.Entered ρ program ∧ cs.Tried ρ program ∧ cs.Started ρ program
  | .none, _ => by
    refine ⟨fun _ _ _ _ _ hne => absurd rfl hne, ?_, fun _ _ _ _ _ _ hne => absurd rfl hne⟩
    intro n l d label post h hl hsuf
    rw [hl rfl]
    exact .head rfl (.refl _)
  | .default mark body, hf => by
    have he : Clauses.Entered ρ program (.default mark body) :=
      Clauses.entered_default (Body.reaches hnodup body hf)
    refine ⟨he, ?_, ?_⟩ <;>
    · intro n l d label post h _ hsuf
      exact .head rfl ((Cpp.reaches_labelCode ρ program label _ h).trans
        (he n l d post h (by simp) (suffix_of_append (suffix_of_append hsuf))))
  | .case mark parts body falls rest, hf => by
    obtain ⟨hfb, hfalls, hfr⟩ := hf
    obtain ⟨hre, hrt, _⟩ := Clauses.reaches hnodup rest hfr
    have he : Clauses.Entered ρ program (.case mark parts body falls rest) :=
      Clauses.entered_case hnodup (Body.reaches hnodup body hfb) hfalls hre
    refine ⟨he, ?_, ?_⟩ <;>
    · intro n l d label post h _ hsuf
      exact .head rfl (Clauses.reaches_decide hfalls he hrt
        (suffix_of_append (suffix_of_append hsuf)))

theorem Body.reaches (hnodup : (Cpp.labels program).Nodup) :
    ∀ b : Body, b.Falls → b.Runs ρ program
  | .done, _ => fun n l post h _ => .refl _
  | .statement texts rest, hf => by
    intro n l post h hsuf
    exact .head rfl (Body.reaches hnodup rest hf n l post _ ((suffix_cons _ _).trans hsuf))
  | .switch init tag clauses rest, hf => by
    obtain ⟨hfc, hfr⟩ := hf
    obtain ⟨_, _, hstart⟩ := Clauses.reaches hnodup clauses hfc
    intro n l post h hsuf
    rw [Body.code_switch, append_assoc] at hsuf ⊢
    exact (hstart.switch hsuf h).trans (Body.reaches hnodup rest hfr _ _ post _ (suffix_of_append hsuf))

end

end Simulation

/-! ## 7. Jumps and their labels -/

theorem labelName_injective {i j : Nat} (h : labelName i = labelName j) : i = j :=
  decimal_injective (append_cancel_left h)

namespace Cpp

theorem labels_plain (h : ∀ line ∈ a, ∀ name, line ≠ .label name) : labels a = [] := by
  induction a with
  | nil => rfl
  | cons line a ih =>
    have hline := h line mem_cons_self
    have ha := ih (forall_mem_cons.mp h).2
    cases line with
    | label name => exact absurd rfl (hline name)
    | _ => exact ha

theorem labels_headCode (n : Nat) (init : Option Text) (tag : Text) : labels (headCode n init tag) = [] := by
  refine labels_plain fun line hl name => ?_
  rcases mem_headCode hl with ⟨clause, rfl⟩ | ⟨name', rfl⟩ <;> exact nofun

theorem labels_header (first : Bool) (d : Option Text) (cs : Clauses) : labels (cs.header first d) = [] := by
  cases cs with
  | none => rfl
  | default mark body => cases first <;> rfl
  | case mark parts body falls rest => rfl

theorem labels_closeCode (cs : Clauses) : labels (closeCode cs) = [] := by
  cases cs <;> rfl

theorem labels_jumpCode (l : Nat) (falls : Bool) : labels (jumpCode l falls) = [] := by
  cases falls <;> rfl

theorem labels_awaited (l : Nat) (falls : Bool) :
    labels (labelCode (awaited l falls)) = (range' l (fallCount falls)).map labelName := by
  cases falls <;> rfl

theorem labels_switchCode (n l : Nat) (waiting init : Option Text) (tag : Text) (cs : Clauses) :
    labels (switchCode n l waiting init tag cs) = (cs.takes waiting).toList
      ++ labels (cs.code (n + tagCount tag) l (discriminant? n tag)) := by
  have hlabel : ∀ w : Option Text, labels (labelCode w) = w.toList := by
    intro w
    cases w <;> rfl
  unfold switchCode
  simp only [labels_append, labels_headCode, labels_header, labels_closeCode, hlabel, nil_append,
    append_nil]

/-- Every jump ends a body: the next header follows, and behind it the label. -/
def JumpsForward (code : List Cpp) : Prop :=
  ∀ a name b, code = a ++ .goto name :: b →
    ∃ header b', header.role = .goesOn ∧ b = header :: .label name :: b'

theorem jumpsForward_of_no_goto {code : List Cpp} (h : ∀ line ∈ code, ∀ name, line ≠ .goto name) :
    JumpsForward code := by
  rintro a name b rfl
  exact absurd rfl (h (.goto name) (by simp) name)

theorem JumpsForward.append {y : List Cpp} (hx : JumpsForward x) (hy : JumpsForward y) : JumpsForward (x ++ y) := by
  intro a name b h
  rcases append_eq_append_iff.mp h with ⟨c, rfl, hc⟩ | ⟨c, rfl, hc⟩
  · exact hy c name b hc
  · cases c with
    | nil => exact hy [] name b hc.symm
    | cons line c =>
      obtain ⟨rfl, rfl⟩ := cons.inj hc
      obtain ⟨header, b', hrole, rfl⟩ := hx a name c rfl
      exact ⟨header, b' ++ y, hrole, rfl⟩

theorem JumpsForward.goto (hx : JumpsForward x) {header : Cpp} (hrole : header.role = .goesOn) (name : Text) :
    JumpsForward (.goto name :: header :: .label name :: x) := by
  intro a name' b h
  cases a with
  | nil =>
    obtain ⟨hn, rfl⟩ := cons.inj h
    cases hn
    exact ⟨header, x, hrole, rfl⟩
  | cons line a =>
    have hrest : JumpsForward ([header, .label name] ++ x) := by
      refine JumpsForward.append (jumpsForward_of_no_goto ?_) hx
      intro line hl name''
      rcases mem_cons.mp hl with rfl | hl
      · rintro rfl
        cases hrole
      · rw [mem_singleton.mp hl]
        exact nofun
    exact hrest a name' b (cons.inj h).2

theorem jumpsForward_header (first : Bool) (d : Option Text) (cs : Clauses) :
    JumpsForward (cs.header first d) := by
  refine jumpsForward_of_no_goto fun line hl name => ?_
  rintro rfl
  cases cs with
  | none => cases hl
  | default mark body => cases first <;> cases mem_singleton.mp hl
  | case mark parts body falls rest => cases mem_singleton.mp hl

theorem jumpsForward_switchCode {l : Nat} (waiting init : Option Text) (tag : Text) (cs : Clauses)
    (h : JumpsForward (cs.code (n + tagCount tag) l (discriminant? n tag))) :
    JumpsForward (switchCode n l waiting init tag cs) := by
  have hhead : JumpsForward (headCode n init tag) := by
    refine jumpsForward_of_no_goto fun line hl name => ?_
    rcases mem_headCode hl with ⟨clause, rfl⟩ | ⟨name', rfl⟩ <;> exact nofun
  have hlabel : JumpsForward (labelCode (cs.takes waiting)) := by
    refine jumpsForward_of_no_goto fun line hl name => ?_
    cases hw : cs.takes waiting with
    | none => simp [hw, labelCode] at hl
    | some label =>
      rw [hw] at hl
      rw [mem_singleton.mp hl]
      rintro ⟨⟩
  have hclose : JumpsForward (closeCode cs) := by
    refine jumpsForward_of_no_goto fun line hl name => ?_
    rintro rfl
    cases cs <;> simp [closeCode] at hl
  exact hhead.append ((jumpsForward_header _ _ cs).append (hlabel.append (h.append hclose)))

end Cpp

mutual

theorem Clauses.labels_code (n l : Nat) (d : Option Text) :
    ∀ cs : Clauses, Cpp.labels (cs.code n l d) = (range' l cs.jumps).map labelName
  | .none => rfl
  | .default mark body => Body.labels_code n l body
  | .case mark parts body falls rest => by
    rw [Clauses.code]
    show Cpp.labels (body.code n l ++ _) = _
    simp only [Cpp.labels_append, Cpp.labels_jumpCode, Cpp.labels_header, Cpp.labels_awaited,
      Body.labels_code n l body, Clauses.labels_code _ _ d rest, nil_append, ← map_append]
    rw [range'_append_1, range'_append_1, Clauses.jumps, Nat.add_assoc]

theorem Body.labels_code (n l : Nat) :
    ∀ b : Body, Cpp.labels (b.code n l) = (range' l b.jumps).map labelName
  | .done => rfl
  | .statement texts rest => Body.labels_code n l rest
  | .switch init tag clauses rest => by
    rw [Body.code_switch, Cpp.labels_append, Cpp.labels_switchCode, Clauses.labels_code,
      Body.labels_code _ _ rest, Clauses.takes_none, Option.toList_none, nil_append,
      ← map_append, range'_append_1, Body.jumps]

end

mutual

theorem Clauses.jumpsForward_code (n l : Nat) (d : Option Text) :
    ∀ cs : Clauses, cs.Falls → Cpp.JumpsForward (cs.code n l d)
  | .none, _ => Cpp.jumpsForward_of_no_goto fun line h => by cases h
  | .default mark body, hf =>
    Cpp.JumpsForward.append (x := [.mark mark]) (Cpp.jumpsForward_of_no_goto (by simp))
      (Body.jumpsForward_code n l body hf)
  | .case mark parts body falls rest, hf => by
    obtain ⟨hfb, hfalls, hfr⟩ := hf
    have hbody := Body.jumpsForward_code n l body hfb
    have hrest := Clauses.jumpsForward_code (n + body.tagged) (l + body.jumps + fallCount falls) d rest hfr
    have hmark : Cpp.JumpsForward [.mark mark] := Cpp.jumpsForward_of_no_goto (by simp)
    refine hmark.append (hbody.append ?_)
    cases falls with
    | false => exact (Cpp.jumpsForward_header false d rest).append hrest
    | true =>
      cases rest with
      | none => exact absurd rfl (hfalls rfl)
      | _ => exact hrest.goto rfl _

theorem Body.jumpsForward_code (n l : Nat) :
    ∀ b : Body, b.Falls → Cpp.JumpsForward (b.code n l)
  | .done, _ => Cpp.jumpsForward_of_no_goto fun line h => by cases h
  | .statement texts rest, hf =>
    Cpp.JumpsForward.append (x := [.statement texts]) (Cpp.jumpsForward_of_no_goto (by simp))
      (Body.jumpsForward_code n l rest hf)
  | .switch init tag clauses rest, hf => by
    obtain ⟨hfc, hfr⟩ := hf
    rw [Body.code_switch]
    exact (Cpp.jumpsForward_switchCode _ _ _ _ (Clauses.jumpsForward_code _ _ _ clauses hfc)).append
      (Body.jumpsForward_code _ _ rest hfr)

end

end Linewise
