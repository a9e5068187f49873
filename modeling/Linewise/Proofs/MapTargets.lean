/-
  Which names a binding makes known maps.

  A line that binds a name to a new map should make the name known. Not every way to bind remembers:

      m := map[string]int{}             known
      m, n := map[string]int{}, 1       not known
      var m Index = map[string]int{}    not known
-/
import Linewise.Proofs.ConstEntries

namespace Linewise

open Text List Lower

variable {s s' : State} {lowered : Lowered} {v name type : Text} {lit : Composite} {kind : Binding.Kind}

/-! ## 1. Values that build a map -/

theorem Composite.trim_type {s : Text} (h : Composite.split? s = some lit) :
    trim lit.type = lit.type := by
  simp only [Composite.split?] at h
  obtain ⟨i, _, h⟩ := Option.bind_eq_some_iff.mp h
  split at h
  · cases h
  · split at h
    · split at h
      · cases h
        exact trim_trim _
      · cases h
    · cases h
      exact trim_trim _

/-- The value builds a map. -/
def BuildsMap (v : Text) : Prop := ∃ c, construct v = .ok (some c) ∧ c.isMap = true

theorem buildsMap_iff : BuildsMap v ↔ (construct v).toOption.join.any (·.isMap) = true := by
  unfold BuildsMap
  cases construct v with
  | error f => exact ⟨nofun, nofun⟩
  | ok built =>
    cases built with
    | none => exact ⟨nofun, nofun⟩
    | some c =>
      refine ⟨fun ⟨c', hc, hmap⟩ => ?_, fun hmap => ⟨c, rfl, hmap⟩⟩
      cases hc
      exact hmap

instance (v : Text) : Decidable (BuildsMap v) := decidable_of_iff _ buildsMap_iff.symm

theorem BuildsMap.head? (h : BuildsMap v) : (trim v).head? = some 'm' := by
  obtain ⟨c, hc, hmap⟩ := h
  unfold construct at hc
  split at hc
  · rename_i args hargs
    obtain ⟨r, hr, _⟩ := Option.bind_eq_some_iff.mp hargs
    rw [eq_append_of_stripStart? hr]
    rfl
  · split at hc
    · cases hc
    · rename_i lit hlit
      have hsplit := (Option.filter_eq_some_iff.mp hlit).1
      have htype := Composite.head?_type hsplit
      rw [trim_trim] at htype
      rw [← htype]
      split at hc
      · rename_i valueType hmapType
        obtain ⟨r, hr, _⟩ := Option.bind_eq_some_iff.mp hmapType
        rw [← Composite.trim_type hsplit, eq_append_of_stripStart? hr]
        rfl
      · split at hc
        · cases hc
          cases hmap
        · split at hc
          · cases hc
            cases hmap
          · cases hc

/-! ## 2. Ways that remember -/

theorem State.mem_registerMap (s : State) (name : Text) : trim name ∈ (s.registerMap name).knownMaps := by
  obtain ⟨known, h, hmem⟩ := s.registerMap_knownMaps name
  rw [h]
  exact (hmem _).mpr (.inr rfl)

theorem State.mem_registerMaps {names : List Text} (h : name ∈ names) (s : State) :
    trim name ∈ (names.foldl State.registerMap s).knownMaps := by
  induction names generalizing s with
  | nil => cases h
  | cons n ns ih =>
    rcases mem_cons.mp h with rfl | h
    · have hlater := State.GathersAt.registerMaps (q := True) (fun n => n) ns (s.registerMap name)
      exact hlater.knownMaps.subset (s.mem_registerMap name)
    · exact ih h _

namespace Lower

variable {name v : Text}

theorem assignOne_map (kind : Binding.Kind) (hname : isDiscard name = false) (hmap : BuildsMap v)
    (hv : trim v = v) (hclosed : (Composite.split? v).filter (!·.closed) = none) (s : State) :
    ∃ lowered, (assignOne name v kind).run s = .ok lowered (s.registerMap name) := by
  have hhead := hmap.head?
  rw [hv] at hhead
  have happend : callArguments? "append" v = none := by
    unfold callArguments? stripStart?
    rw [startsWith_of_head? hhead rfl (by decide)]
    rfl
  have haddress : stripStart? "&" v = none := stripStart?_eq_none (startsWith_of_head? hhead rfl (by decide))
  obtain ⟨⟨type, init, isMap⟩, hc, hmap⟩ := hmap
  obtain rfl : isMap = true := hmap
  unfold assignOne
  rw [hname, happend, hclosed, haddress, hc]
  exact ⟨_, rfl⟩

theorem varOne_map (hname : isDiscard name = false) (hmap : BuildsMap v) (s : State) :
    ∃ text, (varOne none name v).run s = .ok text (s.registerMap name) := by
  obtain ⟨⟨type, init, isMap⟩, hc, hmap⟩ := hmap
  obtain rfl : isMap = true := hmap
  unfold varOne
  rw [hname, hc]
  exact ⟨_, rfl⟩

theorem varValues_of_varDeclaration {line : Text} {b : Binding}
    (hb : Binding.split? (trim (stripStart "var " line)) = some b)
    (hpaired : (splitNamesAndType b.lhs).1.length = (splitTop ',' b.rhs).length)
    (h : (varDeclaration line).run s = .ok lowered s') :
    areNames (splitNamesAndType b.lhs).1 = true ∧
      (varValues ((splitNamesAndType b.lhs).2.map cppType) (splitNamesAndType b.lhs).1 (splitTop ',' b.rhs)).run
        (if (splitNamesAndType b.lhs).2.any isMapType then
          ((splitNamesAndType b.lhs).1.filter (!isDiscard ·)).foldl State.registerMap s else s) = .ok lowered s' := by
  unfold varDeclaration at h
  simp only [hb] at h
  generalize splitNamesAndType b.lhs = targets at h hpaired ⊢
  obtain ⟨names, type⟩ := targets
  simp only at h hpaired ⊢
  cases hnames : areNames names with
  | false =>
    rw [hnames] at h
    cases h
  | true =>
    have hpos : 0 < names.length := length_pos_iff.mpr (areNames_iff.mp hnames).1
    have hvalues : (splitTop ',' b.rhs).isEmpty = false := by
      rw [isEmpty_eq_false_iff, ← length_pos_iff]
      omega
    have hseveral : ((splitTop ',' b.rhs).length == 1 && decide (1 < names.length)) = false := by
      rw [← hpaired, Bool.and_eq_false_iff, beq_eq_false_iff_ne, decide_eq_false_iff_not]
      omega
    have hcount : ((splitTop ',' b.rhs).length != names.length) = false := by
      rw [hpaired, bne_self_eq_false]
    refine ⟨rfl, ?_⟩
    simp only [hnames, hvalues, hseveral, hcount, Bool.not_true, Bool.false_eq_true, if_false] at h
    split at h
    · rename_i hmaps
      rw [if_pos hmaps]
      exact h
    · rename_i hmaps
      rw [if_neg hmaps]
      exact h

theorem mem_knownMaps_of_varValues {names values : List Text}
    (h : (varValues none names values).run s = .ok lowered s') (hmem : (name, v) ∈ names.zip values)
    (hname : isDiscard name = false) (hmap : BuildsMap v) (hv : trim v = v) : trim name ∈ s'.knownMaps := by
  unfold varValues at h
  split at h
  · obtain ⟨rfl, rfl⟩ := Prod.mk.inj (mem_singleton.mp hmem)
    have hhead := hmap.head?
    rw [hv] at hhead
    rw [startsWith_of_head? hhead rfl (by decide)] at h
    obtain ⟨text, s₁, hone, h⟩ := bind_eq_ok h
    obtain ⟨text', hmapped⟩ := varOne_map hname hmap s
    cases hone.symm.trans hmapped
    cases h
    exact s.mem_registerMap name
  · obtain ⟨texts, s₁, hall, h⟩ := bind_eq_ok h
    cases h
    obtain ⟨before, text, after, hone, hkept⟩ := exists_run_of_mem
      (fun p => (spec_varOne (E := fun _ => True) (P := False) (Q := False) none p.1 p.2 fun _ _ => trivial).gathers) hmem hall
    obtain ⟨text', hmapped⟩ := varOne_map hname hmap before
    cases hone.symm.trans hmapped
    exact hkept.knownMaps.subset (before.mem_registerMap name)

/-! ## 3. Ways that forget -/

theorem varOne_typed {text : Text} (h : (varOne (some type) name v).run s = .ok text s') : s' = s := by
  unfold varOne at h
  split at h
  all_goals
    obtain ⟨value, s₁, hvalue, hend⟩ := bind_eq_ok h
    obtain ⟨_, hs⟩ := lift_eq_ok hvalue
    cases hend
    exact hs

theorem varValues_typed {names values : List Text}
    (h : (varValues (some type) names values).run s = .ok lowered s') : s' = s := by
  unfold varValues at h
  split at h
  · rw [Option.isNone_some, Bool.and_false, if_neg Bool.false_ne_true] at h
    obtain ⟨text, s₁, hone, h⟩ := bind_eq_ok h
    cases h
    exact varOne_typed hone
  · obtain ⟨texts, s₁, hall, h⟩ := bind_eq_ok h
    cases h
    exact mapM_unchanged (fun p _ _ _ hone => varOne_typed hone) hall

theorem knownMaps_functionLiteral {lhs rhs : Text}
    (h : (functionLiteral lhs kind rhs).run s = .ok lowered s') : s'.knownMaps
      = (s.registerParams (Signature.paramsAndResults (trimStart (dropRepeated "func" rhs))).1).knownMaps := by
  unfold functionLiteral at h
  generalize Signature.paramsAndResults (trimStart (dropRepeated "func" rhs)) = signature at h ⊢
  obtain ⟨params, results⟩ := signature
  -- what is bound, and that a closure opens, does not matter here
  obtain ⟨_, s₁, hregister, h⟩ := bind_eq_ok h
  cases hregister
  obtain ⟨s₂, s₃, hget, h⟩ := bind_eq_ok h
  cases hget
  by_cases hbrace : endsWith rhs "\x7b" = true
  · rw [if_pos hbrace] at h
    cases h
    rfl
  · rw [if_neg hbrace] at h
    cases h
    rfl

theorem knownMaps_assignOne (hlit : Composite.split? v = some lit)
    (hopen : lit.closed = false) (h : (assignOne name v kind).run s = .ok lowered s') :
    s'.knownMaps = s.knownMaps := by
  cases hname : isDiscard name with
  | true =>
    unfold assignOne at h
    rw [hname] at h
    obtain ⟨text, s₁, hvalue, hend⟩ := bind_eq_ok h
    obtain ⟨_, hs⟩ := lift_eq_ok hvalue
    cases hend
    rw [hs]
  | false =>
    cases happend : callArguments? "append" v with
    | some args =>
      unfold assignOne at h
      rw [hname, happend] at h
      cases h
      rfl
    | none =>
      obtain ⟨lowered', aggregates, hrun⟩ := assignOne_run kind hname happend hlit hopen s
      cases h.symm.trans hrun
      rfl

end Lower

/-! ## 4. Bindings -/

namespace BindingForm

/-- **The bindings that make no name known for its value**: definitions and assignments of several
    names, values that leave a literal open, declarations with another type than a map type, and
    constants. -/
def Overlooks : BindingForm → Binding → Prop
  | assignment, b => 1 < (splitTop ',' b.lhs).length ∨ (Composite.split? b.rhs).any (!·.closed) = true
  | declaration, b => (splitNamesAndType b.lhs).2.any (!isMapType ·) = true
  | constant, _ => True

instance : (form : BindingForm) → (b : Binding) → Decidable (form.Overlooks b)
  | assignment, _ => inferInstanceAs (Decidable (_ ∨ _))
  | declaration, _ => inferInstanceAs (Decidable (_ = true))
  | constant, _ => inferInstanceAs (Decidable True)

/-- The parameters of the function literal an assignment is. -/
def literalParams : BindingForm → Binding → List Parameter
  | assignment, b =>
    if b.isLiteral then
      (Signature.paramsAndResults (trimStart (dropRepeated "func" b.rhs))).1
    else []
  | _, _ => []

variable {form : BindingForm} {line : Text} {b : Binding} {s s' : State} {lowered : Lowered}

/-- A binding that overlooks nothing makes its maps known. -/
theorem mem_knownMaps (hb : form.split? line = some b) (hpaired : (form.names b).length = (values b).length)
    (h : ¬ form.Overlooks b) (hrun : (form.lower line).run s = .ok lowered s')
    (hmem : (name, v) ∈ (form.names b).zip (values b)) (hname : isDiscard name = false) (hmap : BuildsMap v) :
    name ∈ s'.knownMaps := by
  have hv : trim v = v := trim_of_mem_splitTop (of_mem_zip hmem).2
  cases form with
  | constant => exact absurd trivial h
  | assignment =>
    have hone : (splitTop ',' b.lhs).length ≤ 1 := Nat.le_of_not_lt fun hlt => h (.inl hlt)
    have hclosed : (Composite.split? b.rhs).filter (!·.closed) = none :=
      Option.filter_eq_none_iff.mpr fun lit hlit hopen => h (.inr ((Option.any_eq_true _ _).mpr ⟨lit, hlit, hopen⟩))
    -- the line has one name and one value, and they are its sides
    have hlen : (splitTop ',' b.lhs).length = 1 :=
      Nat.le_antisymm hone (length_pos_of_mem (of_mem_zip hmem).1)
    obtain ⟨x, hlhs⟩ := length_eq_one_iff.mp hlen
    obtain ⟨w, hrhs⟩ := length_eq_one_iff.mp (hpaired.symm.trans hlen)
    have hpair : (name, v) ∈ [x].zip [w] := hlhs ▸ hrhs ▸ hmem
    obtain ⟨rfl, rfl⟩ := Prod.mk.inj (mem_singleton.mp hpair)
    obtain ⟨hl, hr⟩ := Binding.trim_sides hb
    obtain rfl : name = b.lhs := (eq_trim_of_splitTop hlhs).trans hl
    obtain rfl : v = b.rhs := (eq_trim_of_splitTop hrhs).trans hr
    have hhead := hmap.head?
    rw [hr] at hhead
    obtain ⟨lowered', hassign⟩ := assignOne_map b.kind hname hmap hr hclosed s
    rw [← Lower.assignment_one hb (Binding.isLiteral_of_head? hhead (by decide)) hone] at hassign
    cases hrun.symm.trans hassign
    have := s.mem_registerMap b.lhs
    rwa [hl] at this
  | declaration =>
    obtain ⟨hnames, hvalues⟩ := varValues_of_varDeclaration hb hpaired hrun
    have hident : isIdentifier name = true := (areNames_iff.mp hnames).2 name (of_mem_zip hmem).1
    have htrim : trim name = name := trim_eq_self_of_solid (solid_of_isIdentifier hident)
    cases htype : (splitNamesAndType b.lhs).2 with
    | none =>
      rw [htype] at hvalues
      have := mem_knownMaps_of_varValues hvalues hmem hname hmap hv
      rwa [htrim] at this
    | some type =>
      have hmapType : isMapType type = true := by
        rw [← Bool.not_eq_false]
        exact fun hno => h ((Option.any_eq_true _ _).mpr ⟨type, htype, by rw [hno]; rfl⟩)
      rw [htype, Option.any_some, if_pos hmapType] at hvalues
      have hmemNames : name ∈ (splitNamesAndType b.lhs).1.filter (!isDiscard ·) :=
        mem_filter.mpr ⟨(of_mem_zip hmem).1, by rw [hname]; rfl⟩
      have := State.mem_registerMaps hmemNames s
      rwa [htrim, ← varValues_typed hvalues] at this

/-- Else at most parameters of a function literal are. -/
theorem knownMaps_of_overlooks (hb : form.split? line = some b)
    (hpaired : (form.names b).length = (values b).length) (h : form.Overlooks b)
    (hrun : (form.lower line).run s = .ok lowered s') :
    s'.knownMaps = (s.registerParams (form.literalParams b)).knownMaps := by
  cases form with
  | constant =>
    cases hentry : constEntryOf s.constGroup line with
    | ok p =>
      cases hrun.symm.trans (constDeclaration_ok hentry)
      rfl
    | error f =>
      obtain ⟨s'', hstop, _⟩ := constDeclaration_error hentry
      cases hrun.symm.trans hstop
  | declaration =>
    obtain ⟨type, htype, hno⟩ := (Option.any_eq_true _ _).mp h
    rw [Bool.not_eq_true'] at hno
    obtain ⟨_, hvalues⟩ := varValues_of_varDeclaration hb hpaired hrun
    rw [htype, Option.any_some, if_neg (Bool.eq_false_iff.mp hno)] at hvalues
    rw [varValues_typed hvalues]
    rfl
  | assignment =>
    have hassign : (Lower.assignment line).run s = .ok lowered s' := hrun
    cases hliteral : b.isLiteral with
    | true =>
      rw [Lower.assignment_literal hb hliteral] at hassign
      rw [show literalParams assignment b = _ from if_pos hliteral]
      exact knownMaps_functionLiteral hassign
    | false =>
      rw [show literalParams assignment b = [] from if_neg (Bool.eq_false_iff.mp hliteral)]
      by_cases hone : (splitTop ',' b.lhs).length ≤ 1
      · rw [Lower.assignment_one hb hliteral hone] at hassign
        obtain ⟨lit, hlit, hopen⟩ := (Option.any_eq_true _ _).mp (h.resolve_left (Nat.not_lt_of_le hone))
        rw [Bool.not_eq_true'] at hopen
        exact knownMaps_assignOne hlit hopen hassign
      · rw [assignment_parallel hb hliteral (Nat.lt_of_not_le hone) hpaired] at hassign
        obtain ⟨texts, s₁, hvalues, hend⟩ := bind_eq_ok hassign
        obtain ⟨_, hs⟩ := lift_eq_ok hvalues
        cases hend
        rw [hs]
        rfl

theorem overlooks_assignment (hb : assignment.split? line = some b) (hline : WellNested line) :
    assignment.Overlooks b ↔ 1 < (assignment.names b).length := by
  refine ⟨fun h => h.resolve_right fun hopen => ?_, .inl⟩
  obtain ⟨lit, hlit, hopen⟩ := (Option.any_eq_true _ _).mp hopen
  rw [(hline.binding_rhs hb).composite_closed hlit] at hopen
  cases hopen

end BindingForm

/-! ## 5. Known maps -/

/-- **Which names a line makes known maps.** Where each name has a value of its own, a line that
    overlooks nothing makes every name known that is not blank and gets a new map. A line that
    overlooks its values makes none known for them: it adds at most the parameters of a function
    literal. With matching brackets the assignments that overlook are those of several names. -/
theorem knownMaps_of_binding {form : BindingForm} {line : Text} {b : Binding} {s s' : State} {lowered : Lowered}
    (hb : form.split? line = some b) (hpaired : (form.names b).length = (BindingForm.values b).length)
    (hrun : (form.lower line).run s = .ok lowered s') :
    (¬ form.Overlooks b → ∀ name v, (name, v) ∈ (form.names b).zip (BindingForm.values b) →
      isDiscard name = false → BuildsMap v → name ∈ s'.knownMaps) ∧
    (form.Overlooks b → s'.knownMaps = (s.registerParams (form.literalParams b)).knownMaps) ∧
    (form = .assignment → WellNested line → (form.Overlooks b ↔ 1 < (form.names b).length)) := by
  refine ⟨fun h name v hmem hname hmap => ?_, fun h => ?_, fun hassign hline => ?_⟩
  · exact BindingForm.mem_knownMaps hb hpaired h hrun hmem hname hmap
  · exact BindingForm.knownMaps_of_overlooks hb hpaired h hrun
  · subst hassign
    exact BindingForm.overlooks_assignment hb hline

/-- Two maps in one declaration. -/
def twoMaps : Text := "var m, n = make(map[string]int), map[int]bool\x7b1: true\x7d"

theorem twoMaps_known : ∃ lowered s', (BindingForm.declaration.lower twoMaps).run {} = .ok lowered s' ∧
    ("m" : Text) ∈ s'.knownMaps ∧ ("n" : Text) ∈ s'.knownMaps := by
  have hb : BindingForm.declaration.split? twoMaps
      = some ⟨"m, n", "make(map[string]int), map[int]bool\x7b1: true\x7d", .assign⟩ := by decide +kernel
  obtain ⟨lowered, hrun⟩ :=
    run_of_ends (by decide +kernel : (BindingForm.declaration.lower twoMaps).ends {} = true)
  have hknown := (knownMaps_of_binding hb (by decide +kernel) hrun).1 (by decide +kernel)
  have hm := hknown "m" "make(map[string]int)" (by decide +kernel) rfl (by decide +kernel)
  have hn := hknown "n" "map[int]bool\x7b1: true\x7d" (by decide +kernel) rfl (by decide +kernel)
  exact ⟨lowered, _, hrun, hm, hn⟩

/-- A map and a number in one definition. -/
def pairedMap : Text := "m, n := map[string]int\x7b\"a\": 1\x7d, 2"

/-- A map under the name of its type. -/
def namedMap : Text := "var m Index = map[string]int\x7b\"a\": 1\x7d"

/-- **Both forget that `m` is a map**, though they end and `m` gets a new map. -/
theorem knownMaps_forgotten :
    BuildsMap "map[string]int\x7b\"a\": 1\x7d" ∧
    (BindingForm.assignment.split? pairedMap).map (fun b => (BindingForm.assignment.names b).zip (BindingForm.values b))
      = some ([("m", "map[string]int\x7b\"a\": 1\x7d"), ("n", "2")] : List (Text × Text)) ∧
    (BindingForm.assignment.lower pairedMap).ends {} = true ∧
    ((BindingForm.assignment.lower pairedMap).after {}).knownMaps = [] ∧
    (BindingForm.declaration.split? namedMap).map (fun b => (BindingForm.declaration.names b).zip (BindingForm.values b))
      = some ([("m", "map[string]int\x7b\"a\": 1\x7d")] : List (Text × Text)) ∧
    (BindingForm.declaration.lower namedMap).ends {} = true ∧
    ((BindingForm.declaration.lower namedMap).after {}).knownMaps = [] := by
  decide +kernel

end Linewise
