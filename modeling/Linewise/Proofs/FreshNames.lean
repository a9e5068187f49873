/-
  Names that are made up, and labels that are placed.

  Over any run of lines, those that stop included, no name is handed out twice. A label is placed by
  the header of a clause, once, and only when an earlier jump goes there.
-/
import Linewise.Proofs.Construct

namespace Linewise

open Text List Lower

/-! ## 1. Names -/

namespace NameSupply

/-- **The names between two supplies**, each handed out by a draw from the supply the last one left. -/
inductive Draws : NameSupply → List Text → NameSupply → Prop
  | nil (n : NameSupply) : Draws n [] n
  | cons (role : NameRole) {name : Text} {s s' : State} {names : List Text} {n : NameSupply}
      (head : (freshName role).run s = .ok name s') (tail : Draws s'.names names n) :
      Draws s.names (name :: names) n

variable {n n' n'' : NameSupply} {names names' : List Text} {role : NameRole}

theorem Draws.append (h : Draws n names n') (h' : Draws n' names' n'') : Draws n (names ++ names') n'' := by
  induction h with
  | nil => exact h'
  | cons role head _ ih => exact .cons role head (ih h')

theorem eq_of_count (h : ∀ role, n.count role = n'.count role) : n = n' := by
  cases n
  cases n'
  simp only [mk.injEq]
  exact ⟨h .switch, h .label, h .defer, h .discard, h .entry⟩

theorem count_advance_le (hle : ∀ role, n.count role ≤ n'.count role) (h : n.count role < n'.count role)
    (other : NameRole) : (n.advance role).count other ≤ n'.count other := by
  by_cases ho : other = role
  · rw [ho, count_advance_self]
    exact h
  · rw [count_advance_of_ne n ho]
    exact hle other

/-- How many names have been drawn, of all roles. -/
def total (n : NameSupply) : Nat := n.switch + n.label + n.defer + n.discard + n.entry

theorem total_advance (n : NameSupply) (role : NameRole) : (n.advance role).total = n.total + 1 := by
  cases role <;> simp only [advance, total] <;> omega

theorem total_le (hle : ∀ role, n.count role ≤ n'.count role) : n.total ≤ n'.total :=
  Nat.add_le_add (Nat.add_le_add (Nat.add_le_add (Nat.add_le_add (hle .switch) (hle .label)) (hle .defer))
    (hle .discard)) (hle .entry)

theorem exists_draws {n n' : NameSupply} (hle : ∀ role, n.count role ≤ n'.count role) :
    ∃ names, Draws n names n' := by
  by_cases h : ∃ role, n.count role < n'.count role
  · obtain ⟨role, hlt⟩ := h
    have hle' := count_advance_le hle hlt
    have htotal := total_le hle'
    have hadvance := total_advance n role
    obtain ⟨names, hnames⟩ := exists_draws hle'
    exact ⟨n.next role :: names, .cons (s := { names := n }) role rfl hnames⟩
  · have heq : n = n' := eq_of_count fun role =>
      Nat.le_antisymm (hle role) (Nat.not_lt.mp fun hlt => h ⟨role, hlt⟩)
    exact ⟨[], heq ▸ .nil n⟩
termination_by n'.total - n.total

end NameSupply

/-! ## 2. Runs -/

/-- One line of a run, with the state it is lowered in. -/
structure Turn where
  kind : StatementKind
  text : Text
  before : State

namespace Turn

/-- The state the line leaves, also where it stops. -/
def after (t : Turn) : State := (line t.kind t.text).after t.before

/-- What the line emits with a given label waiting. A line that stops emits nothing. -/
def emitted (t : Turn) (label : Option Text) : Option Text :=
  match (line t.kind t.text).run (t.before.withLabel label) with
  | .ok lowered _ => lowered.render
  | .error _ _ => none

/-- The line is a jump to the label. -/
def Jumps (t : Turn) (label : Text) : Prop :=
  t.kind = .fallthrough ∧ t.emitted t.before.pendingLabel = some ("goto " ++ label ++ ";")

/-- The line places the label: with it waiting, the definition stands behind what the line emits
    without it. -/
def Places (t : Turn) (label : Text) : Prop :=
  ∃ text, t.emitted none = some text ∧ t.emitted t.before.pendingLabel = some (text ++ "\n" ++ label ++ ":;")

/-- The names handed out while the line is lowered. -/
def Draws (t : Turn) (names : List Text) : Prop := t.before.names.Draws names t.after.names

end Turn

/-- The turns of a run over the lines, from a state. -/
def turns (s : State) : List (StatementKind × Text) → List Turn
  | [] => []
  | (kind, text) :: rest => ⟨kind, text, s⟩ :: turns ((line kind text).after s) rest

variable {s : State} {t : Turn} {history : List Turn}

theorem Turn.exists_draws (t : Turn) : ∃ names, t.Draws names :=
  NameSupply.exists_draws (gathers_line t.kind t.text t.before).names

namespace Turn

theorem emitted_of_ok {label : Option Text} {lowered : Lowered} {s' : State}
    (h : (line t.kind t.text).run (t.before.withLabel label) = .ok lowered s') :
    t.emitted label = lowered.render := by
  unfold emitted
  rw [h]

/-- **What a line may do with the label that waits**: nothing, leave a new one as a jump, or place
    it as the header of a clause. -/
inductive LabelUse (t : Turn) : Prop
  | keeps (emits : ∀ label, t.emitted label = t.emitted none)
      (waits : t.after.pendingLabel = t.before.pendingLabel)
  | jumps (kind : t.kind = .fallthrough)
      (emits : ∀ label, t.emitted label = some ("goto " ++ t.before.names.next .label ++ ";"))
      (waits : t.after = awaitClause t.before)
  | places (kind : t.kind = .caseClause ∨ t.kind = .defaultClause) (header : Text)
      (emits : ∀ label, t.emitted label = some (header ++ labelText label))
      (waits : t.after.pendingLabel = none)

theorem LabelUse.of_relabel (h : ∀ label, (line t.kind t.text).run (t.before.withLabel label)
    = relabel label ((line t.kind t.text).run t.before)) : t.LabelUse := by
  refine .keeps (fun label => ?_) ?_
  · unfold emitted
    rw [h label, h none]
    cases (line t.kind t.text).run t.before <;> rfl
  · have hself : (line t.kind t.text).run t.before
        = relabel t.before.pendingLabel ((line t.kind t.text).run t.before) := h t.before.pendingLabel
    unfold after
    cases hrun : (line t.kind t.text).run t.before with
    | ok lowered s =>
      rw [hrun] at hself
      rw [after_of_ok (hrun.trans hself)]
      rfl
    | error stop s =>
      rw [hrun] at hself
      rw [after_of_error (hrun.trans hself)]
      rfl

theorem labelUse_caseClause (text : Text) (s : State) : LabelUse ⟨.caseClause, text, s⟩ := by
  cases hs : s.switches with
  | nil =>
    refine .of_relabel fun label => ?_
    show (caseClause text).run _ = relabel label ((caseClause text).run s)
    rw [caseClause_outside text hs, caseClause_outside (s := s.withLabel label) text hs]
    rfl
  | cons f fs =>
    by_cases hv : clauseValues text = []
    · refine .of_relabel fun label => ?_
      show (caseClause text).run _ = relabel label ((caseClause text).run s)
      rw [caseClause_empty hs hv, caseClause_empty (s := s.withLabel label) hs hv]
      rfl
    · exact .places (.inl rfl)
        (clauseHeader f ("if (" ++ clauseCondition f.discriminant (clauseValues text) ++ ") \x7b"))
        (fun label => emitted_of_ok (t := ⟨.caseClause, text, s⟩) (caseClause_run (s := s.withLabel label) hs hv))
        (congrArg State.pendingLabel (after_of_ok (caseClause_run hs hv)))

theorem labelUse_defaultClause (text : Text) (s : State) : LabelUse ⟨.defaultClause, text, s⟩ := by
  cases hs : s.switches with
  | nil =>
    refine .of_relabel fun label => ?_
    show defaultClause.run _ = relabel label (defaultClause.run s)
    rw [defaultClause_outside hs, defaultClause_outside (s := s.withLabel label) hs]
    rfl
  | cons f fs =>
    exact .places (.inr rfl) (defaultHeader f)
      (fun label => emitted_of_ok (t := ⟨.defaultClause, text, s⟩) (defaultClause_run (s := s.withLabel label) hs))
      (congrArg State.pendingLabel (after_of_ok (defaultClause_run hs)))

theorem labelUse (t : Turn) : t.LabelUse := by
  obtain ⟨kind, text, s⟩ := t
  cases hk : kind.usesLabel with
  | false => exact .of_relabel fun label => (adds_line hk text).unlabelled label s
  | true =>
    cases kind with
    | caseClause => exact labelUse_caseClause text s
    | defaultClause => exact labelUse_defaultClause text s
    | fallthrough => exact .jumps rfl (fun _ => rfl) rfl
    | _ => cases hk

theorem not_places (h : t.emitted t.before.pendingLabel = t.emitted none) (label : Text) : ¬ t.Places label := by
  rintro ⟨text, hnone, hsome⟩
  rw [h, hnone] at hsome
  have hlength := congrArg length (Option.some.inj hsome)
  simp at hlength

theorem Places.waits {label : Text} (h : t.Places label) :
    (t.kind = .caseClause ∨ t.kind = .defaultClause) ∧ t.before.pendingLabel = some label := by
  cases t.labelUse with
  | keeps emits => exact absurd h (not_places (emits _) label)
  | jumps _ emits => exact absurd h (not_places ((emits _).trans (emits _).symm) label)
  | places kind header emits =>
    refine ⟨kind, ?_⟩
    cases hp : t.before.pendingLabel with
    | none => exact absurd h (not_places (by rw [hp]) label)
    | some waiting =>
      obtain ⟨text, hnone, hsome⟩ := h
      rw [emits, labelText, append_nil] at hnone
      obtain rfl := Option.some.inj hnone
      rw [hp, emits, labelText, append_assoc, append_assoc] at hsome
      have hlabel := append_cancel_left (append_cancel_left (Option.some.inj hsome))
      rw [append_cancel_right hlabel]

end Turn

/-- **The labels of a run up to a state.** The one that waits belongs to an earlier jump and is not
    placed, and all have been drawn. -/
structure LabelsOf (history : List Turn) (s : State) : Prop where
  jumped : ∀ label, s.pendingLabel = some label → ∃ t ∈ history, t.Jumps label
  unplaced : ∀ label, s.pendingLabel = some label → ∀ t ∈ history, ¬ t.Places label
  drawn : ∀ label, s.pendingLabel = some label ∨ (∃ t ∈ history, t.Places label) →
    ∃ k < s.names.label, label = NameRole.label.head ++ decimal k

theorem LabelsOf.step (h : LabelsOf history t.before) : LabelsOf (history ++ [t]) t.after := by
  have hnames : t.before.names.label ≤ t.after.names.label :=
    (gathers_line t.kind t.text t.before).names .label
  have hplaced : ∀ label, (∃ u ∈ history ++ [t], u.Places label) →
      ∃ k < t.before.names.label, label = NameRole.label.head ++ decimal k := by
    rintro label ⟨u, hu, hplaces⟩
    rcases mem_append.mp hu with hu | hu
    · exact h.drawn label (.inr ⟨u, hu, hplaces⟩)
    · rw [mem_singleton.mp hu] at hplaces
      exact h.drawn label (.inl hplaces.waits.2)
  have hdrawn : ∀ label, (∃ u ∈ history ++ [t], u.Places label) →
      ∃ k < t.after.names.label, label = NameRole.label.head ++ decimal k := fun label hp =>
    have ⟨k, hk, heq⟩ := hplaced label hp
    ⟨k, Nat.lt_of_lt_of_le hk hnames, heq⟩
  cases t.labelUse with
  | keeps emits waits =>
    refine ⟨fun label hw => ?_, fun label hw u hu => ?_, fun label hl => ?_⟩
    · obtain ⟨u, hu, hjumps⟩ := h.jumped label (waits ▸ hw)
      exact ⟨u, mem_append_left _ hu, hjumps⟩
    · rcases mem_append.mp hu with hu | hu
      · exact h.unplaced label (waits ▸ hw) u hu
      · rw [mem_singleton.mp hu]
        exact Turn.not_places (emits _) label
    · rcases hl with hw | hp
      · obtain ⟨k, hk, heq⟩ := h.drawn label (.inl (waits ▸ hw))
        exact ⟨k, Nat.lt_of_lt_of_le hk hnames, heq⟩
      · exact hdrawn label hp
  | jumps kind emits waits =>
    have hnext : ∀ label, t.after.pendingLabel = some label → label = t.before.names.next .label := fun label hw => by
      rw [waits] at hw
      exact (Option.some.inj hw).symm
    refine ⟨fun label hw => ?_, fun label hw u hu hplaces => ?_, fun label hl => ?_⟩
    · rw [hnext label hw]
      exact ⟨t, by simp, kind, emits _⟩
    · -- a label placed so far has been drawn before the one that waits now
      obtain ⟨k, hk, heq⟩ := hplaced label ⟨u, hu, hplaces⟩
      rw [hnext label hw] at heq
      have hcount := decimal_injective (append_cancel_left heq)
      exact absurd hk (hcount ▸ Nat.lt_irrefl _)
    · rcases hl with hw | hp
      · refine ⟨t.before.names.label, ?_, hnext label hw⟩
        rw [waits]
        exact Nat.lt_succ_self _
      · exact hdrawn label hp
  | places kind header emits waits =>
    have hnone : ∀ label, t.after.pendingLabel ≠ some label := fun label hw => by
      rw [waits] at hw
      cases hw
    exact ⟨fun label hw => absurd hw (hnone label), fun label hw => absurd hw (hnone label),
      fun label hl => hdrawn label (hl.resolve_left (hnone label))⟩

theorem LabelsOf.run (lines : List (StatementKind × Text)) {pre post : List Turn}
    (hturns : turns s lines = pre ++ t :: post) (h : LabelsOf history s) : LabelsOf (history ++ pre) t.before := by
  induction lines generalizing s history pre with
  | nil => exact absurd hturns.symm (append_cons_ne_nil _)
  | cons line rest ih =>
    cases pre with
    | nil =>
      obtain ⟨rfl, -⟩ := cons.inj hturns
      rw [append_nil]
      exact h
    | cons first pre =>
      obtain ⟨rfl, htail⟩ := cons.inj hturns
      rw [append_cons]
      exact ih htail h.step

end Linewise
