/-
  What a run gathers, and that lowering a line only adds to it.

  Known maps, declarations, notices and the counts of drawn names are written by many functions. Each
  of them adds and none takes away, also where a step stops half-way.
-/
import Linewise.Lower.Line

namespace Linewise

open Text List

variable {α β ε : Type} {s s' : State}

theorem exists_ok_of_bind {x : Except ε α} {f : α → Except ε β} {b : β} (h : x.bind f = .ok b) :
    ∃ a, x = .ok a ∧ f a = .ok b := by
  cases x with
  | error e => cases h
  | ok a => exact ⟨a, rfl, h⟩

theorem exists_ok_of_isOk {x : Except ε α} (h : x.isOk = true) : ∃ a, x = .ok a := by
  cases x with
  | error e => cases h
  | ok a => exact ⟨a, rfl⟩

theorem mapM_cons_eq_ok {f : α → Except ε β} {x : α} {xs : List α} {ys : List β} (h : (x :: xs).mapM f = .ok ys) :
    ∃ y zs, f x = .ok y ∧ xs.mapM f = .ok zs ∧ ys = y :: zs := by
  rw [mapM_cons] at h
  obtain ⟨y, hx, h⟩ := exists_ok_of_bind h
  obtain ⟨zs, hxs, h⟩ := exists_ok_of_bind h
  exact ⟨y, zs, hx, hxs, (Except.ok.inj h).symm⟩

theorem length_of_mapM {f : α → Except ε β} {xs : List α} {ys : List β} (h : xs.mapM f = .ok ys) : ys.length = xs.length := by
  induction xs generalizing ys with
  | nil =>
    cases h
    rfl
  | cons x xs ih =>
    obtain ⟨y, zs, _, hzs, rfl⟩ := mapM_cons_eq_ok h
    rw [length_cons, length_cons, ih hzs]

theorem exists_of_mapM {f : α → Except ε β} {xs : List α} {ys : List β} (h : xs.mapM f = .ok ys) :
    (∀ y ∈ ys, ∃ x ∈ xs, f x = .ok y) ∧ ∀ x ∈ xs, ∃ y ∈ ys, f x = .ok y := by
  induction xs generalizing ys with
  | nil =>
    cases h
    exact ⟨forall_mem_nil _, forall_mem_nil _⟩
  | cons x xs ih =>
    obtain ⟨y, zs, hy, hzs, rfl⟩ := mapM_cons_eq_ok h
    obtain ⟨hto, hfrom⟩ := ih hzs
    refine ⟨forall_mem_cons.mpr ⟨⟨x, mem_cons_self, hy⟩, fun z hz => ?_⟩,
      forall_mem_cons.mpr ⟨⟨y, mem_cons_self, hy⟩, fun z hz => ?_⟩⟩
    · exact (hto z hz).imp fun w hw => ⟨mem_cons_of_mem x hw.1, hw.2⟩
    · exact (hfrom z hz).imp fun w hw => ⟨mem_cons_of_mem y hw.1, hw.2⟩

theorem exists_error_of_mapM {f : α → Except ε β} {xs : List α} {e : ε} (h : xs.mapM f = .error e) :
    ∃ x ∈ xs, f x = .error e := by
  induction xs with
  | nil => cases h
  | cons x xs ih =>
    rw [mapM_cons] at h
    cases hx : f x with
    | error e' =>
      rw [hx] at h
      cases h
      exact ⟨x, mem_cons_self, hx⟩
    | ok y =>
      cases hxs : xs.mapM f with
      | error e' =>
        rw [hx, hxs] at h
        cases h
        obtain ⟨z, hz, hfz⟩ := ih hxs
        exact ⟨z, mem_cons_of_mem x hz, hfz⟩
      | ok ys =>
        rw [hx, hxs] at h
        cases h

/-! ## 1. What is gathered -/

namespace State

/-- What `s` has gathered is there in `s'`. -/
structure Gathers (s s' : State) : Prop where
  knownMaps : s.knownMaps <+: s'.knownMaps
  prototypes : s.prototypes <+: s'.prototypes
  notices : s.notices <+: s'.notices
  names : ∀ role, s.names.count role ≤ s'.names.count role
  prettyPrint : s.needsPrettyPrint = true → s'.needsPrettyPrint = true
  aggregates : s.hasAggregates = true → s'.hasAggregates = true

namespace Gathers

variable {s s' s'' : State}

theorem refl (s : State) : Gathers s s :=
  ⟨prefix_rfl, prefix_rfl, prefix_rfl, fun _ => Nat.le_refl _, id, id⟩

theorem trans (h : Gathers s s') (h' : Gathers s' s'') : Gathers s s'' where
  knownMaps := h.knownMaps.trans h'.knownMaps
  prototypes := h.prototypes.trans h'.prototypes
  notices := h.notices.trans h'.notices
  names role := Nat.le_trans (h.names role) (h'.names role)
  prettyPrint := h'.prettyPrint ∘ h.prettyPrint
  aggregates := h'.aggregates ∘ h.aggregates

end Gathers

/-- The part of the state that is gathered, and the number it is gathered under. -/
structure Record where
  lineNumber : Nat
  knownMaps : List Text
  prototypes : List Text
  notices : List Notice
  names : NameSupply
  needsPrettyPrint : Bool
  hasAggregates : Bool

/-- What a state has gathered. -/
def record (s : State) : Record :=
  ⟨s.lineNumber, s.knownMaps, s.prototypes, s.notices, s.names, s.needsPrettyPrint, s.hasAggregates⟩

/-- **What lowering one line adds**: notices under its number, and no declaration if `quiet` holds. -/
structure GathersAt (quiet : Prop) (s s' : State) : Prop where
  lineNumber : s'.lineNumber = s.lineNumber
  knownMaps : s.knownMaps <+: s'.knownMaps
  prototypes : s.prototypes <+: s'.prototypes
  declaresNone : quiet → s'.prototypes = s.prototypes
  notices : ∃ new, s'.notices = s.notices ++ new ∧ ∀ n ∈ new, n.line = s.lineNumber
  names : ∀ role, s.names.count role ≤ s'.names.count role
  prettyPrint : s.needsPrettyPrint = true → s'.needsPrettyPrint = true
  aggregates : s.hasAggregates = true → s'.hasAggregates = true

namespace GathersAt

variable {q q' : Prop} {s s' s'' : State}

theorem of_eq (h : s'.record = s.record) : GathersAt q s s' := by
  have hnotices : s'.notices = s.notices := congrArg Record.notices h
  have hmaps : s'.knownMaps = s.knownMaps := congrArg Record.knownMaps h
  have hprototypes : s'.prototypes = s.prototypes := congrArg Record.prototypes h
  have hnames : s'.names = s.names := congrArg Record.names h
  have hpretty : s'.needsPrettyPrint = s.needsPrettyPrint := congrArg Record.needsPrettyPrint h
  have haggregates : s'.hasAggregates = s.hasAggregates := congrArg Record.hasAggregates h
  exact {
    lineNumber := congrArg Record.lineNumber h
    knownMaps := hmaps ▸ prefix_rfl
    prototypes := hprototypes ▸ prefix_rfl
    declaresNone := fun _ => hprototypes
    notices := ⟨[], by rw [hnotices, append_nil], nofun⟩
    names := fun role => Nat.le_of_eq (congrArg (NameSupply.count · role) hnames.symm)
    prettyPrint := hpretty.trans
    aggregates := haggregates.trans }

theorem refl (s : State) : GathersAt q s s := of_eq rfl

theorem trans (h : GathersAt q s s') (h' : GathersAt q s' s'') : GathersAt q s s'' where
  lineNumber := h'.lineNumber.trans h.lineNumber
  knownMaps := h.knownMaps.trans h'.knownMaps
  prototypes := h.prototypes.trans h'.prototypes
  declaresNone hq := (h'.declaresNone hq).trans (h.declaresNone hq)
  notices := by
    obtain ⟨new, hnew, hline⟩ := h.notices
    obtain ⟨new', hnew', hline'⟩ := h'.notices
    refine ⟨new ++ new', by rw [hnew', hnew, append_assoc], fun n hn => ?_⟩
    rcases mem_append.mp hn with hn | hn
    · exact hline n hn
    · exact (hline' n hn).trans h.lineNumber
  names role := Nat.le_trans (h.names role) (h'.names role)
  prettyPrint := h'.prettyPrint ∘ h.prettyPrint
  aggregates := h'.aggregates ∘ h.aggregates

theorem weaken (h : GathersAt q s s') (hq : q' → q) : GathersAt q' s s' :=
  { h with declaresNone := h.declaresNone ∘ hq }

theorem gathers (h : GathersAt q s s') : Gathers s s' := by
  obtain ⟨new, hnew, _⟩ := h.notices
  exact ⟨h.knownMaps, h.prototypes, hnew ▸ prefix_append _ _, h.names, h.prettyPrint, h.aggregates⟩

theorem notice (s : State) (message : Text) : GathersAt q s (s.notice message) :=
  { refl s with
    notices := ⟨[⟨s.lineNumber, message⟩], rfl, fun _ hn => by rw [mem_singleton.mp hn]⟩ }

theorem registerMap (s : State) (name : Text) : GathersAt q s (s.registerMap name) := by
  unfold State.registerMap
  split
  · exact refl s
  · exact { refl s with knownMaps := prefix_append _ _ }

theorem registerMaps (name : α → Text) (xs : List α) (s : State) :
    GathersAt q s (xs.foldl (fun s x => s.registerMap (name x)) s) := by
  induction xs generalizing s with
  | nil => exact refl s
  | cons x xs ih => exact (registerMap s (name x)).trans (ih _)

theorem advance (s : State) (role : NameRole) :
    GathersAt q s { s with names := s.names.advance role } := by
  refine { refl s with names := fun other => ?_ }
  by_cases h : other = role
  · rw [h, NameSupply.count_advance_self]
    exact Nat.le_succ _
  · exact Nat.le_of_eq (NameSupply.count_advance_of_ne _ h).symm

theorem usePrettyPrint (s : State) : GathersAt q s { s with needsPrettyPrint := true } :=
  { refl s with prettyPrint := fun _ => rfl }

theorem useAggregates (s : State) (b : Bool) :
    GathersAt q s { s with hasAggregates := s.hasAggregates || b } :=
  { refl s with aggregates := fun h => by rw [h]; rfl }

theorem declare (s : State) (prototype : Text) :
    GathersAt False s { s with prototypes := s.prototypes ++ [prototype] } :=
  { refl (q := False) s with prototypes := prefix_append _ _, declaresNone := nofun }

end GathersAt

end State

/-! ## 2. Steps -/

namespace Lower

theorem bind_ok {m : Lower α} {f : α → Lower β} {a : α} (h : m.run s = .ok a s') :
    (m >>= f).run s = (f a).run s' := by
  rw [EStateM.run_bind, h]

theorem bind_error {m : Lower α} {f : α → Lower β} {stop : Stop} (h : m.run s = .error stop s') :
    (m >>= f).run s = .error stop s' := by
  rw [EStateM.run_bind, h]

theorem bind_eq_ok {m : Lower α} {f : α → Lower β} {b : β} {s'' : State} (h : (m >>= f).run s = .ok b s'') :
    ∃ a s', m.run s = .ok a s' ∧ (f a).run s' = .ok b s'' := by
  cases hm : m.run s with
  | error stop s' =>
    rw [bind_error hm] at h
    cases h
  | ok a s' =>
    rw [bind_ok hm] at h
    exact ⟨a, s', rfl, h⟩

theorem lift_eq_ok {x : Except Fault α} {a : α} (h : (lift x).run s = .ok a s') : x = .ok a ∧ s' = s := by
  cases x with
  | error f => cases h
  | ok b =>
    cases h
    exact ⟨rfl, rfl⟩

/-- The state a step leaves, whether it ends or stops. -/
def after {α : Type} (m : Lower α) (s : State) : State :=
  match m.run s with
  | .ok _ s' => s'
  | .error _ s' => s'

/-- The step only adds to what is gathered, and belongs to the line at hand. -/
def Gathers {α : Type} (q : Prop) (m : Lower α) : Prop := ∀ s, State.GathersAt q s (m.after s)

theorem after_of_ok {m : Lower α} {a : α} (h : m.run s = .ok a s') : m.after s = s' := by
  unfold after
  rw [h]

theorem after_of_error {m : Lower α} {stop : Stop} (h : m.run s = .error stop s') : m.after s = s' := by
  unfold after
  rw [h]

namespace Gathers

variable {α β : Type} {q q' : Prop}

theorem weaken {m : Lower α} (h : Gathers q m) (hq : q' → q) : Gathers q' m :=
  fun s => (h s).weaken hq

theorem pure (a : α) : Gathers q (Pure.pure a : Lower α) := State.GathersAt.refl

theorem bind {m : Lower α} {f : α → Lower β} (hm : Gathers q m)
    (hf : ∀ s a s', m.run s = .ok a s' → Gathers q (f a)) : Gathers q (m >>= f) := by
  intro s
  have hs := hm s
  cases hr : m.run s with
  | error stop s' =>
    rw [after_of_error hr] at hs
    rw [after_of_error (bind_error hr)]
    exact hs
  | ok a s' =>
    rw [after_of_ok hr] at hs
    have hrun : (m >>= f).after s = (f a).after s' := by
      unfold after
      rw [bind_ok hr]
    rw [hrun]
    exact hs.trans (hf s a s' hr s')

theorem get_bind {f : State → Lower α} (hf : ∀ s, State.GathersAt q s ((f s).after s)) :
    Gathers q (MonadState.get >>= f) := hf

theorem mapM {f : α → Lower β} {xs : List α} (hf : ∀ a ∈ xs, Gathers q (f a)) : Gathers q (xs.mapM f) := by
  induction xs with
  | nil =>
    rw [mapM_nil]
    exact pure []
  | cons x xs ih =>
    rw [mapM_cons]
    have hrest := ih (forall_mem_cons.mp hf).2
    exact (hf x mem_cons_self).bind fun _ _ _ _ => hrest.bind fun _ _ _ _ => pure _

end Gathers

/-! ## 3. Results -/

/-- What holds of every result of a step. -/
def Yields {α : Type} (P : α → Prop) (m : Lower α) : Prop := ∀ s a s', m.run s = .ok a s' → P a

namespace Yields

variable {α β : Type} {P : β → Prop} {Q : α → Prop}

theorem pure {b : β} (h : P b) : Yields P (Pure.pure b : Lower β) := by
  intro s a s' hrun
  cases hrun
  exact h

theorem throw (stop : Stop) : Yields P (MonadExcept.throw stop : Lower β) := by
  intro s a s' hrun
  cases hrun

theorem trivial (m : Lower α) : Yields (fun _ => True) m := fun _ _ _ _ => True.intro

theorem bind {m : Lower α} {f : α → Lower β} (hm : Yields Q m) (hf : ∀ a, Q a → Yields P (f a)) :
    Yields P (m >>= f) := by
  intro s b s'' hrun
  obtain ⟨a, s', ha, hb⟩ := bind_eq_ok hrun
  exact hf a (hm s a s' ha) s' b s'' hb

theorem mono {P' : β → Prop} {m : Lower β} (h : Yields P m) (himp : ∀ b, P b → P' b) : Yields P' m :=
  fun s b s' hrun => himp b (h s b s' hrun)

theorem mapM {f : α → Lower β} {xs : List α} (hf : ∀ a ∈ xs, Yields P (f a)) :
    Yields (fun bs => bs.length = xs.length ∧ ∀ b ∈ bs, P b) (xs.mapM f) := by
  induction xs with
  | nil =>
    rw [mapM_nil]
    exact pure ⟨rfl, nofun⟩
  | cons x xs ih =>
    rw [mapM_cons]
    refine (hf x mem_cons_self).bind fun b hb => (ih (forall_mem_cons.mp hf).2).bind fun bs hbs =>
      pure ⟨?_, fun c hc => ?_⟩
    · rw [length_cons, length_cons, hbs.1]
    · rcases mem_cons.mp hc with rfl | hc
      · exact hb
      · exact hbs.2 c hc

end Yields

end Lower

/-! ## 4. The label that waits -/

/-- The state with another label waiting. -/
def State.withLabel (label : Option Text) (s : State) : State := { s with pendingLabel := label }

/-- A change of the state that leaves the known maps alone, and is the same whatever they are. -/
structure State.SparesMaps (g : State → State) : Prop where
  knownMaps : ∀ s, (g s).knownMaps = s.knownMaps
  commutes : ∀ s known, { g s with knownMaps := known } = g { s with knownMaps := known }

theorem State.SparesMaps.registerMap {g : State → State} (h : SparesMaps g) (s : State) (name : Text) :
    (g s).registerMap name = g (s.registerMap name) := by
  unfold State.registerMap
  rw [h.knownMaps]
  split
  · rfl
  · exact h.commutes s _

theorem State.SparesMaps.registerMaps {α : Type} {g : State → State} (h : SparesMaps g) (name : α → Text)
    (xs : List α) (s : State) :
    xs.foldl (fun s x => s.registerMap (name x)) (g s) = g (xs.foldl (fun s x => s.registerMap (name x)) s) :=
  foldl_hom g fun s x => h.registerMap s (name x)

theorem State.sparesMaps_withLabel (label : Option Text) : SparesMaps (withLabel label) :=
  ⟨fun _ => rfl, fun _ _ => rfl⟩

namespace Lower

/-- The end of a step with another label waiting. -/
def relabel {α : Type} (label : Option Text) : EStateM.Result Stop State α → EStateM.Result Stop State α
  | .ok a s => .ok a (s.withLabel label)
  | .error stop s => .error stop (s.withLabel label)

/-- The step neither reads nor changes the label that waits, whether it ends or stops. -/
def Unlabelled {α : Type} (m : Lower α) : Prop :=
  ∀ label s, m.run (s.withLabel label) = relabel label (m.run s)

namespace Unlabelled

variable {α β : Type} {m : Lower α} {f : α → Lower β}

theorem bind (hm : Unlabelled m) (hf : ∀ s a s', m.run s = .ok a s' → Unlabelled (f a)) : Unlabelled (m >>= f) := by
  intro label s
  rw [EStateM.run_bind, EStateM.run_bind, hm]
  cases hr : m.run s with
  | ok a s' => exact hf s a s' hr label s'
  | error stop s' => rfl

theorem modify {g : State → State} (hg : ∀ label s, g (s.withLabel label) = (g s).withLabel label) :
    Unlabelled (modify g : Lower Unit) := fun label s => congrArg (EStateM.Result.ok ()) (hg label s)

theorem get_bind {f : State → Lower α} (hf : ∀ label s, f (s.withLabel label) = f s) (h : ∀ s, Unlabelled (f s)) :
    Unlabelled (get >>= f) := by
  intro label s
  show (f (s.withLabel label)).run (s.withLabel label) = relabel label ((f s).run s)
  rw [hf]
  exact h s label s

theorem mapM {xs : List α} (hf : ∀ a ∈ xs, Unlabelled (f a)) : Unlabelled (xs.mapM f) := by
  induction xs with
  | nil => exact fun _ _ => rfl
  | cons x xs ih =>
    rw [mapM_cons]
    have hrest := ih (forall_mem_cons.mp hf).2
    exact (hf x mem_cons_self).bind fun _ _ _ _ => hrest.bind fun _ _ _ _ _ _ => rfl

end Unlabelled

end Lower

end Linewise
