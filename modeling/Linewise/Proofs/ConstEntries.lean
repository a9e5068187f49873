/-
  What becomes of a declaration of constants.

  An entry with expressions is the template of the entries behind it, one without takes over the
  template it finds. One declaration is written for each name that is not blank, with the index of the
  entry for `iota`.
-/
import Linewise.Proofs.Bindings
import Linewise.Proofs.Kind
import Linewise.Proofs.PlainLine

namespace Linewise

open Text List Binding

variable {a n s line : Text} {c needle : Char} {t : ConstTemplate} {g : ConstGroup}

/-! ## 1. The lowering of an entry -/

/-- The group that an entry belongs to. Outside a group every entry is the first one. -/
def State.constGroup (s : State) : ConstGroup := if s.block? = some .constGroup then s.consts else {}

/-- The names of an entry and its template, if there are as many names as expressions. -/
def constParts (g : ConstGroup) (body line : Text) : Except Fault (List Text × ConstTemplate) :=
  let paired (names : List Text) (t : ConstTemplate) : Except Fault (List Text × ConstTemplate) :=
    if t.exprs.length != names.length then .error (.countMismatch names.length t.exprs.length line)
    else .ok (names, t)
  match split? body with
  | some b =>
    paired (splitNamesAndType b.lhs).1 ⟨(splitNamesAndType b.lhs).2.map cppType, splitTop ',' b.rhs⟩
  | none =>
    match g.template with
    | some t => paired (splitTop ',' body) t
    | none => .error (.unrecognized .const line)

/-- The names of an entry and its template, or what is wrong with it. -/
def constEntryOf (g : ConstGroup) (line : Text) : Except Fault (List Text × ConstTemplate) :=
  (constParts g (trim (stripStart "const " line)) line).bind fun (names, t) =>
    if areNames names then .ok (names, t) else .error (.unrecognized .const line)

/-- The declarations for the names that are not blank. -/
def constLines (names : List Text) (t : ConstTemplate) (index : Nat) : List Text :=
  ((names.zip t.exprs).filter fun p => !isDiscard p.1).map fun p => Lower.constOne t.type index p.1 p.2

/-- Declarations as one text; without one the entry is dropped. -/
def constLowered (ls : List Text) : Lowered := if ls.isEmpty then .dropped else .line (unlines ls)

namespace Lower

theorem constEntry_run (body line : Text) (s : State) :
    (constEntry body line).run s = match constParts s.consts body line with
      | .ok (names, t) => .ok (names, t) { s with consts := { s.consts with template := some t } }
      | .error f => .error (.fault f) s := by
  unfold constEntry constParts
  cases split? body with
  | some b =>
    dsimp only
    split
    · rfl
    · rfl
  | none =>
    rw [EStateM.run_bind, EStateM.run_get]
    dsimp only
    cases ht : s.consts.template with
    | none => rfl
    | some t =>
      dsimp only
      split
      · rfl
      · -- a template that is taken over stays what it is
        have hs : ({ s with consts := { s.consts with template := some t } } : State) = s := by
          rw [← ht]
        exact congrArg (EStateM.Result.ok (splitTop ',' body, t)) hs.symm

/-- What an entry does with the group under way. -/
def declareConst (line : Text) : Lower Lowered := do
  let (names, template) ← constEntry (trim (stripStart "const " line)) line
  if !areNames names then
    fail (.unrecognized .const line)
  let index := (← get).consts.index
  modify fun s => { s with consts := { s.consts with index := index + 1 } }
  let named := (names.zip template.exprs).filter fun (name, _) => !isDiscard name
  return if named.isEmpty then .dropped
    else .line (unlines (named.map fun (name, expr) => constOne template.type index name expr))

theorem constDeclaration_run_eq (line : Text) (s : State) :
    (constDeclaration line).run s = (declareConst line).run { s with consts := s.constGroup } := by
  unfold constDeclaration
  rw [EStateM.run_bind, EStateM.run_get]
  unfold State.constGroup
  by_cases h : s.block? = some .constGroup
  · have hb : (s.block? != some .constGroup) = false := by rw [h]; rfl
    simp only [hb, if_pos h]
    rfl
  · have hb : (s.block? != some .constGroup) = true := by simpa using h
    simp only [hb, if_neg h]
    rfl

variable {line : Text} {s : State}

theorem constDeclaration_ok {names : List Text} (h : constEntryOf s.constGroup line = .ok (names, t)) :
    (constDeclaration line).run s = .ok (constLowered (constLines names t s.constGroup.index))
      { s with consts := ⟨s.constGroup.index + 1, some t⟩ } := by
  rw [constDeclaration_run_eq]
  unfold declareConst
  have hentry := constEntry_run (trim (stripStart "const " line)) line { s with consts := s.constGroup }
  obtain ⟨p, hparts, h⟩ := exists_ok_of_bind h
  rw [hparts] at hentry
  replace h : (if areNames p.1 then Except.ok p else .error (Fault.unrecognized .const line)) = .ok (names, t) := h
  split at h
  · rename_i ha
    cases h
    rw [bind_ok hentry]
    simp only [ha]
    unfold constLowered constLines
    rw [isEmpty_map]
    rfl
  · cases h

theorem constDeclaration_error {f : Fault} (h : constEntryOf s.constGroup line = .error f) :
    ∃ s', (constDeclaration line).run s = .error (.fault f) s' ∧ s'.lineNumber = s.lineNumber := by
  rw [constDeclaration_run_eq]
  unfold declareConst
  have hentry := constEntry_run (trim (stripStart "const " line)) line { s with consts := s.constGroup }
  unfold constEntryOf at h
  cases hparts : constParts s.constGroup (trim (stripStart "const " line)) line with
  | error g =>
    rw [hparts] at h hentry
    cases h
    exact ⟨_, bind_error hentry, rfl⟩
  | ok p =>
    rw [hparts] at h hentry
    replace h : (if areNames p.1 then Except.ok p else .error (Fault.unrecognized .const line))
        = .error f := h
    split at h
    · cases h
    · rename_i ha
      cases h
      rw [bind_ok hentry]
      simp only [ha]
      exact ⟨_, rfl, rfl⟩

theorem constDeclaration_eq_ok {lowered : Lowered} {s' : State}
    (h : (constDeclaration line).run s = .ok lowered s') :
    ∃ names t, constEntryOf s.constGroup line = .ok (names, t) ∧
      lowered = constLowered (constLines names t s.constGroup.index) := by
  cases hentry : constEntryOf s.constGroup line with
  | error f =>
    obtain ⟨s'', hrun, -⟩ := constDeclaration_error hentry
    rw [hrun] at h
    cases h
  | ok p =>
    rw [constDeclaration_ok hentry] at h
    cases h
    exact ⟨p.1, p.2, rfl, rfl⟩

end Lower

/-! ## 2. Signs of equality -/

theorem isPart_joinWith {sep : Char} (hbare : Bare [sep]) (hR : sep ≠ 'R') (hne : needle ≠ sep)
    {parts : List Text} (h : ∀ p ∈ parts, IsPart needle p) : IsPart needle (joinWith [sep] parts) := by
  have hquote : sep ≠ '"' := by
    rintro rfl
    exact absurd (hbare.head).2 (by decide)
  exact isPart_joined (isPart_bare hbare (by simpa using hne)) (cons_ne_nil _ _) (by simpa using hquote)
    (by simpa using hR) h

theorem exists_joinWith_concat (sep : Text) (ps : List Text) :
    ∃ front, ∀ last, joinWith sep (ps ++ [last]) = front ++ last := by
  induction ps with
  | nil => exact ⟨[], joinWith_singleton sep⟩
  | cons p ps ih =>
    obtain ⟨front, hfront⟩ := ih
    refine ⟨p ++ (sep ++ front), fun last => ?_⟩
    obtain ⟨q, qs, hq⟩ := exists_cons_of_ne_nil (append_cons_ne_nil ps)
    rw [cons_append, hq, joinWith_cons_cons, ← hq, hfront]
    simp

namespace Binding

theorem signFrom?_part (b : Text) :
    ∀ {l : Lexer} {d : Int}, topIndexFrom? '=' l d a = none →
      signFrom? l d (a ++ b)
        = (signFrom? (l.run a) (d + l.level a) b).map fun p => (p.1 + a.length, p.2) := by
  induction a with
  | nil =>
    intro l d _
    simp [Lexer.level]
  | cons c a ih =>
    intro l d h
    unfold topIndexFrom? at h
    split at h
    · cases h
    · rename_i hc
      rw [cons_append, signFrom?, if_neg hc, ih (Option.map_eq_none_iff.mp h), Lexer.run_cons,
        Lexer.level, Int.add_assoc, Option.map_map]
      rfl

/-- The characters that make another sign of a sign of equality behind them. -/
def signHeads : Text := "=!<>+-*/%&|^:"

theorem split?_sign {v : Text} (ha : IsPart '=' a) (hlast : ∀ c ∈ a.getLast?, c ∉ signHeads)
    (hv : v.head? ≠ some '=') : split? (a ++ '=' :: v) = some ⟨trim a, trim v, .assign⟩ := by
  have hl : (Lexer.start.run a).last ∉ signHeads := by
    rw [Lexer.run_last]
    cases h : a.getLast? with
    | none => decide
    | some c => exact hlast c h
  have hcode : (Lexer.start.run a).isCode '=' = true :=
    Lexer.isCode_of_mode ha.wellNested.literals rfl
  have hsub (t : Text) (ht : t ⊆ signHeads) : t.contains (Lexer.start.run a).last = false :=
    Bool.eq_false_iff.mpr fun h => hl (ht (contains_iff_mem.mp h))
  have hsign : signFrom? (Lexer.start.run a) 0 ('=' :: v) = some (0, .assign) := by
    have hcolon : ((Lexer.start.run a).last == ':') = false :=
      beq_eq_false_iff_ne.mpr fun h => hl (h ▸ by decide)
    have hhead : (v.head? == some '=') = false := beq_eq_false_iff_ne.mpr hv
    simp only [signFrom?, hcode, hhead, hsub "=!<>" (by decide), hsub "+-*/%&|^" (by decide), hcolon,
      beq_self_eq_true, Bool.and_self, Bool.or_self, Bool.false_eq_true, if_true, if_false]
  have hskip := signFrom?_part ('=' :: v) (show topIndexFrom? '=' Lexer.start 0 a = none from ha.whole)
  rw [ha.wellNested.level_eq, Int.add_zero, hsign] at hskip
  unfold split?
  rw [hskip]
  simp only [Option.map_some, Nat.zero_add, take_left]
  rw [← Nat.add_zero (a.length + 1), Nat.add_assoc, drop_length_add_append]
  rfl

theorem split?_part (h : IsPart '=' a) : split? a = none := by
  have hskip := signFrom?_part [] (show topIndexFrom? '=' Lexer.start 0 a = none from h.whole)
  rw [append_nil] at hskip
  unfold split?
  rw [hskip]
  rfl

end Binding

/-! ## 3. Entries as they are written -/

/-- An entry of a group: names, the type behind the last one, and expressions. Without these it is
    bare. -/
structure ConstEntry where
  earlier : List Text
  last : Text
  type : Text
  exprs : List Text
  deriving DecidableEq, Repr

namespace ConstEntry

/-- An entry with expressions of its own. -/
def isExplicit (e : ConstEntry) : Bool := !e.exprs.isEmpty

/-- The names without the white space around them. -/
def names (e : ConstEntry) : List Text := (e.earlier ++ [e.last]).map trim

/-- The type in C++, if there is one. -/
def cppType? (e : ConstEntry) : Option Text :=
  if isAllBlank e.type then none else some (cppType (trim e.type))

/-- What the bare entries behind an explicit one repeat. -/
def template (e : ConstEntry) : ConstTemplate := ⟨e.cppType?, e.exprs.map trim⟩

/-- The text in front of the sign of equality. -/
def left (e : ConstEntry) : Text := joinWith [','] (e.earlier ++ [e.last ++ e.type])

/-- The expressions as they are written. -/
def right (e : ConstEntry) : Text := joinWith [','] e.exprs

/-- The whole entry as it is written. -/
def text (e : ConstEntry) : Text := if e.isExplicit then e.left ++ '=' :: e.right else e.left

/-- An entry that is well written: names, a type apart from the last of them, whole expressions, one
    line and no comment. -/
@[mk_iff] structure Valid (e : ConstEntry) : Prop where
  names : ∀ n ∈ e.names, isIdentifier n = true ∧ n ∉ StatementKind.reserved
  typeApart : ∀ c ∈ e.type.head?, isBlank c = true
  typeWhole : IsPart ',' e.type ∧ IsPart '=' e.type
  typeEnd : ∀ c ∈ e.type.getLast?, c ∉ Binding.signHeads
  exprs : ∀ x ∈ e.exprs, IsPart ',' x ∧ IsPart ';' x ∧ ¬ Blank x
  rightStart : e.right.head? ≠ some '='
  bare : e.isExplicit = false → Blank e.type
  solid : trim e.text = e.text
  oneLine : '\n' ∉ e.text
  noBackquote : '\x60' ∉ e.text
  noComment : Lexer.start.commentIndex? e.text = none

instance (e : ConstEntry) : Decidable e.Valid := decidable_of_iff _ (valid_iff ..).symm

end ConstEntry

/-! ## 4. What is read back -/

theorem splitOnce?_append {p : Char → Bool} (ha : ∀ c ∈ a, p c = false) (hc : p c = true) (b : Text) :
    splitOnce? p (a ++ c :: b) = some (a, b) := by
  have hnot : ∀ d ∈ a, (!p d) = true := fun d hd => by rw [ha d hd]; rfl
  unfold splitOnce?
  rw [dropWhile_append_of_pos hnot, takeWhile_append_of_pos hnot, dropWhile_cons, hc,
    takeWhile_cons, hc]
  simp

theorem splitOnce?_eq_none {p : Char → Bool} (h : ∀ c ∈ s, p c = false) : splitOnce? p s = none := by
  cases hs : splitOnce? p s with
  | none => rfl
  | some q =>
    obtain ⟨c, hc, he⟩ := eq_append_of_splitOnce? hs
    rw [h c (by rw [he]; simp)] at hc
    cases hc

theorem not_isBlank_of_isIdentifier {x : Text} (h : isIdentifier x = true) : ∀ c ∈ x, isBlank c = false :=
  fun c hc => not_isBlank_of_isWordChar (isWordChar_of_mem h c hc)

theorem splitOnce?_typed {t : Text} (hid : isIdentifier (trim n) = true)
    (hapart : ∀ c ∈ t.head?, isBlank c = true) (ht : ¬ Blank t) :
    ∃ r, splitOnce? isBlank (trim (n ++ t)) = some (trim n, r) ∧ trim r = trim t := by
  obtain ⟨u, v, hn, hu, hv⟩ := eq_append_trim n
  obtain ⟨u', v', ht', hu', hv'⟩ := eq_append_trim t
  have hTne : trim t ≠ [] := fun h => ht (trim_eq_nil_iff.mp h)
  have hgap : u' ≠ [] := by
    rintro rfl
    obtain ⟨c, r, hc⟩ := exists_cons_of_ne_nil hTne
    have hhead : t.head? = some c := by rw [ht', hc]; rfl
    have := (solid_trim t).1 c (by rw [hc]; rfl)
    rw [hapart c hhead] at this
    cases this
  have hxne : trim n ≠ [] := by
    intro h
    rw [h] at hid
    cases hid
  -- between the name and the type there is white space only, and at least one of it
  obtain ⟨b, m, hbm⟩ := exists_cons_of_ne_nil (append_ne_nil_of_right_ne_nil v hgap)
  have hblank : Blank (b :: m) := by
    rw [← hbm]
    exact forall_mem_append.mpr ⟨hv, hu'⟩
  have hsplit : n ++ t = u ++ ((trim n ++ b :: (m ++ trim t)) ++ v') := by
    rw [hn, ht', trim_append_of_blank hu hv, trim_append_of_blank hu' hv', trim_trim, trim_trim,
      ← cons_append, ← hbm]
    simp only [append_assoc]
  have hsolid : Solid (trim n ++ b :: (m ++ trim t)) :=
    solid_around (solid_trim n) hxne (solid_trim t) hTne (b :: m)
  refine ⟨m ++ trim t, ?_, ?_⟩
  · rw [hsplit, trim_append_of_blank hu hv', trim_eq_self_of_solid hsolid]
    exact splitOnce?_append (not_isBlank_of_isIdentifier hid) (hblank b mem_cons_self) _
  · rw [trim_blank_append (forall_mem_cons.mp hblank).2, trim_trim]

/-! ### Names with white space around them -/

section Names

theorem char_of_name (hn : isIdentifier (trim n) = true) (hc : c ∈ n) : isBlank c = true ∨ isWordChar c = true := by
  obtain ⟨u, v, he, hu, hv⟩ := eq_append_trim n
  rw [he] at hc
  rcases mem_append.mp hc with hc | hc
  · exact .inl (hu c hc)
  · rcases mem_append.mp hc with hc | hc
    · exact .inr (isWordChar_of_mem hn c hc)
    · exact .inl (hv c hc)

theorem bare_name (hn : isIdentifier (trim n) = true) : Bare n := by
  intro c hc
  rcases char_of_name hn hc with hb | hw
  · exact bare_of_blank (s := [c]) (by simpa [Blank] using hb) c mem_cons_self
  · exact not_special_of_isWordChar hw

theorem isPart_name (hn : isIdentifier (trim n) = true) (hb : isBlank needle = false)
    (hw : isWordChar needle = false) : IsPart needle n := by
  refine isPart_bare (bare_name hn) fun hm => ?_
  rcases char_of_name hn hm with hb' | hw'
  · rw [hb] at hb'
    cases hb'
  · rw [hw] at hw'
    cases hw'

theorem not_blank_name (hn : isIdentifier (trim n) = true) : ¬ Blank n := by
  intro hb
  rw [trim_eq_nil_iff.mpr hb] at hn
  cases hn

variable {earlier : List Text} {last t : Text} (hid : ∀ n ∈ earlier ++ [last], isIdentifier (trim n) = true)
  (hapart : ∀ c ∈ t.head?, isBlank c = true)

include hid hapart

theorem isPart_of_mem_names (hb : isBlank needle = false) (hw : isWordChar needle = false) (ht : IsPart needle t) :
    ∀ p ∈ earlier ++ [last ++ t], IsPart needle p := by
  intro p hp
  rcases mem_append.mp hp with hp | hp
  · exact isPart_name (hid p (mem_append_left _ hp)) hb hw
  · rw [mem_singleton.mp hp]
    refine (isPart_name (hid last (by simp)) hb hw).join ht (.inr ?_)
    intro hq
    exact absurd (hapart '"' hq) (by decide)

theorem splitTop_names (ht : IsPart ',' t) :
    splitTop ',' (joinWith [','] (earlier ++ [last ++ t])) = earlier.map trim ++ [trim (last ++ t)] := by
  have hblank : isAllBlank (joinWith [','] (earlier ++ [last ++ t])) = false := by
    refine Bool.eq_false_iff.mpr fun hb => ?_
    refine not_blank_name (hid last (by simp)) fun c hc => ?_
    exact isAllBlank_iff.mp hb c (mem_joinWith_of_mem (p := last ++ t) (by simp) (by simp [hc]))
  rw [splitTop_joinWith (by decide) (by decide) (isPart_of_mem_names hid hapart rfl rfl ht)
    hblank, map_append]
  rfl

theorem splitNamesAndType_typed (ht : IsPart ',' t) (hne : ¬ Blank t) :
    splitNamesAndType (joinWith [','] (earlier ++ [last ++ t])) = ((earlier ++ [last]).map trim, some (trim t)) := by
  obtain ⟨r, hr, htrim⟩ := splitOnce?_typed (hid last (by simp)) hapart hne
  unfold splitNamesAndType
  rw [splitTop_names hid hapart ht, map_append]
  simp only [getLast?_concat, Option.bind_some, dropLast_concat]
  rw [hr, ← htrim]
  rfl

theorem splitNamesAndType_untyped (ht : Blank t) :
    splitNamesAndType (joinWith [','] (earlier ++ [last ++ t])) = ((earlier ++ [last]).map trim, none) := by
  have hpart : IsPart ',' t := isPart_bare (bare_of_blank ht) (not_mem_of_blank ht rfl)
  unfold splitNamesAndType
  rw [splitTop_names hid hapart hpart, map_append]
  simp only [getLast?_concat, Option.bind_some]
  rw [trim_append_blank ht, splitOnce?_eq_none (not_isBlank_of_isIdentifier (hid last (by simp)))]
  rfl

end Names

theorem ConstEntry.trim_last {e : ConstEntry} (hb : Blank e.type) : trim (e.last ++ e.type) = trim e.last :=
  trim_append_blank hb e.last

namespace ConstEntry.Valid

variable {e : ConstEntry} (h : e.Valid)

include h

theorem isIdentifier_trim : ∀ n ∈ e.earlier ++ [e.last], isIdentifier (trim n) = true :=
  fun n hn => (h.names (trim n) (mem_map_of_mem hn)).1

theorem isPart_left (hb : isBlank needle = false) (hw : isWordChar needle = false) (hne : needle ≠ ',')
    (ht : IsPart needle e.type) : IsPart needle e.left :=
  isPart_joinWith (by decide) (by decide) hne (isPart_of_mem_names h.isIdentifier_trim h.typeApart hb hw ht)

theorem splitTop_left : splitTop ',' e.left = e.earlier.map trim ++ [trim (e.last ++ e.type)] :=
  splitTop_names h.isIdentifier_trim h.typeApart h.typeWhole.1

theorem splitNamesAndType_left :
    ((splitNamesAndType e.left).1, (splitNamesAndType e.left).2.map cppType) = (e.names, e.cppType?) := by
  unfold ConstEntry.names cppType?
  by_cases hb : Blank e.type
  · rw [if_pos (isAllBlank_iff.mpr hb),
      show splitNamesAndType e.left = _ from splitNamesAndType_untyped h.isIdentifier_trim h.typeApart hb]
    rfl
  · rw [if_neg (mt isAllBlank_iff.mp hb),
      show splitNamesAndType e.left = _ from splitNamesAndType_typed h.isIdentifier_trim h.typeApart h.typeWhole.1 hb]
    rfl

theorem last_not_signHead : ∀ c ∈ e.left.getLast?, c ∉ signHeads := by
  have hsigns : ∀ c ∈ signHeads, isBlank c = false ∧ isWordChar c = false := by decide
  intro c hc
  have hlast : (e.last ++ e.type).getLast? = some c := by
    unfold left at hc
    obtain ⟨front, hfront⟩ := exists_joinWith_concat [','] e.earlier
    have hne : e.last ≠ [] := by
      intro hnil
      refine not_blank_name (h.isIdentifier_trim e.last (by simp)) ?_
      rw [hnil]
      exact blank_nil
    rwa [hfront, getLast?_append_of_ne_nil _ (append_ne_nil_of_left_ne_nil hne _)] at hc
  rw [getLast?_append] at hlast
  cases ht : e.type.getLast? with
  | some d =>
    rw [ht] at hlast
    cases hlast
    exact h.typeEnd c ht
  | none =>
    rw [ht] at hlast
    intro hs
    rcases char_of_name (h.isIdentifier_trim e.last (by simp)) (mem_of_getLast? hlast) with hb | hw
    · rw [(hsigns c hs).1] at hb
      cases hb
    · rw [(hsigns c hs).2] at hw
      cases hw

theorem splitTop_right (hx : e.isExplicit = true) : splitTop ',' e.right = e.exprs.map trim := by
  refine splitTop_joinWith (by decide) (by decide) (fun x hmem => (h.exprs x hmem).1) ?_
  refine Bool.eq_false_iff.mpr fun hb => ?_
  obtain ⟨x, xs, hcons⟩ := exists_cons_of_ne_nil (by simpa [isExplicit] using hx)
  have hmem : x ∈ e.exprs := by rw [hcons]; exact mem_cons_self
  exact (h.exprs x hmem).2.2 fun c hc => isAllBlank_iff.mp hb c (mem_joinWith_of_mem hmem hc)

theorem constParts_eq (line : Text) (ht : (if e.isExplicit then some e.template else g.template) = some t)
    (hlen : t.exprs.length = e.names.length) : constParts g e.text line = .ok (e.names, t) := by
  have hleft : IsPart '=' e.left := h.isPart_left rfl rfl (by decide) h.typeWhole.2
  have hpaired : (t.exprs.length != e.names.length) = false := by rw [hlen]; exact bne_self_eq_false _
  unfold constParts text
  cases hx : e.isExplicit with
  | true =>
    rw [hx] at ht
    cases ht
    have htype : splitNamesAndType (trim e.left) = splitNamesAndType e.left := by
      unfold splitNamesAndType
      rw [splitTop_trim rfl rfl]
    obtain ⟨hnames, hcpp⟩ := Prod.mk.inj h.splitNamesAndType_left
    rw [if_pos rfl, split?_sign hleft h.last_not_signHead h.rightStart]
    simp only [htype, hnames, hcpp, splitTop_trim (show isBracket ',' = false by decide)
      (show isBlank ',' = false by decide), h.splitTop_right hx]
    exact if_neg (Bool.eq_false_iff.mp hpaired)
  | false =>
    rw [hx] at ht
    replace ht : g.template = some t := ht
    have hnames : splitTop ',' e.left = e.names := by
      rw [h.splitTop_left, trim_last (h.bare hx), ConstEntry.names, map_append]
      rfl
    rw [if_neg Bool.false_ne_true, split?_part hleft]
    simp only [ht, hnames]
    exact if_neg (Bool.eq_false_iff.mp hpaired)

theorem areNames_names : areNames e.names = true :=
  areNames_iff.mpr ⟨by simp [ConstEntry.names], fun n hn => (h.names n hn).1⟩

theorem constEntryOf_eq (hline : trim (stripStart "const " line) = e.text)
    (ht : (if e.isExplicit then some e.template else g.template) = some t)
    (hlen : t.exprs.length = e.names.length) : constEntryOf g line = .ok (e.names, t) := by
  unfold constEntryOf
  rw [hline, h.constParts_eq line ht hlen]
  exact if_pos h.areNames_names

theorem constEntryOf_bare (hline : trim (stripStart "const " line) = e.text) (hx : e.isExplicit = false)
    (hg : g.template = none) : constEntryOf g line = .error (.unrecognized .const line) := by
  have hleft : IsPart '=' e.left := h.isPart_left rfl rfl (by decide) h.typeWhole.2
  unfold constEntryOf constParts
  rw [hline, text, hx, if_neg Bool.false_ne_true, split?_part hleft, hg]
  rfl

theorem exists_head : ∃ x y, e.text = x ++ y ∧ isIdentifier x = true ∧ x ∉ StatementKind.reserved ∧
    ∀ c ∈ y.head?, isWordChar c = false := by
  obtain ⟨n, rest, hn, hleft, hrest⟩ : ∃ n rest, n ∈ e.earlier ++ [e.last] ∧ e.left = n ++ rest ∧
      ∀ c ∈ rest.head?, isWordChar c = false := by
    unfold left
    cases e.earlier with
    | nil =>
      refine ⟨e.last, e.type, by simp, joinWith_singleton _ _, fun c hc => ?_⟩
      exact not_isWordChar_of_isBlank (h.typeApart c hc)
    | cons n ns =>
      obtain ⟨q, qs, hq⟩ := exists_cons_of_ne_nil (concat_ne_nil (e.last ++ e.type) ns)
      refine ⟨n, [','] ++ joinWith [','] (q :: qs), by simp, ?_, fun c hc => ?_⟩
      · rw [cons_append, hq, joinWith_cons_cons]
      · cases hc
        decide
  obtain ⟨rest', htext, hrest'⟩ : ∃ rest', e.text = n ++ rest' ∧ ∀ c ∈ rest'.head?, isWordChar c = false := by
    unfold text
    split
    · refine ⟨rest ++ '=' :: e.right, by rw [hleft, append_assoc], fun c hc => ?_⟩
      cases rest with
      | nil =>
        cases hc
        decide
      | cons d r => exact hrest c hc
    · exact ⟨rest, hleft, hrest⟩
  obtain ⟨u, v, hpad, hu, hv⟩ := eq_append_trim n
  obtain ⟨hid, hres⟩ := h.names (trim n) (mem_map_of_mem hn)
  -- nothing stands in front of it, for the entry has no white space at its start
  have hnil : u = [] := by
    cases u with
    | nil => rfl
    | cons c u =>
      have hsolid := (solid_trim e.text).1 c (by rw [h.solid, htext, hpad]; rfl)
      rw [hu c mem_cons_self] at hsolid
      cases hsolid
  refine ⟨trim n, v ++ rest', ?_, hid, hres, fun c hc => ?_⟩
  · rw [htext]
    conv => lhs; rw [hpad, hnil]
    rw [nil_append, append_assoc]
  · cases v with
    | nil => exact hrest' c hc
    | cons d v =>
      cases hc
      exact not_isWordChar_of_isBlank (hv _ mem_cons_self)

theorem head?_text : ∃ c, e.text.head? = some c ∧ isWordChar c = true := by
  obtain ⟨x, y, htext, hid, -⟩ := h.exists_head
  obtain ⟨c, r, rfl, hc⟩ := exists_cons_of_isIdentifier hid
  exact ⟨c, by rw [htext]; rfl, hc⟩

theorem text_ne_nil : e.text ≠ [] := by
  obtain ⟨c, hc, -⟩ := h.head?_text
  intro hnil
  rw [hnil] at hc
  cases hc

theorem not_startsWith (hc : isWordChar c = false) (t : Text) : startsWith e.text (c :: t) = false := by
  obtain ⟨d, hd, hw⟩ := h.head?_text
  exact startsWith_of_head? hd rfl (ne_of_isWordChar hw hc)

theorem stripStart_text : stripStart "const " e.text = e.text := by
  obtain ⟨x, y, htext, hid, hres, hy⟩ := h.exists_head
  have hnot : startsWith e.text "const " = false := by
    refine Bool.eq_false_iff.mpr fun hs => hres ?_
    obtain ⟨r, hr⟩ := startsWith_iff.mp hs
    have hword : (x ++ y).takeWhile isWordChar = x := by
      rw [takeWhile_append_of_pos (isWordChar_of_mem hid)]
      cases y with
      | nil => exact append_nil x
      | cons c y => rw [takeWhile_cons_of_neg (by rw [hy c rfl]; decide), append_nil]
    have hkey : ("const" ++ (' ' :: r)).takeWhile isWordChar = "const" := by
      rw [takeWhile_append_of_pos (by decide), takeWhile_cons_of_neg (by decide), append_nil]
    rw [← hword, ← htext, hr]
    exact (congrArg (· ∈ StatementKind.reserved) hkey).mpr (by decide)
  exact stripStart_eq_self hnot

theorem wellNested : WellNested e.text := by
  have hleft : IsPart '=' e.left := h.isPart_left rfl rfl (by decide) h.typeWhole.2
  have hright : WellNested e.right :=
    wellNested_joinWith (by decide) (by decide) fun x hmem => (h.exprs x hmem).1
  have hsign : WellNested ('=' :: e.right) :=
    WellNested.join (a := ['=']) (Bare.wellNested (by decide)) hright (.inl (by decide))
  unfold text
  split
  · exact hleft.wellNested.join hsign (joins_of_head (by decide) _ _)
  · exact hleft.wellNested

theorem last_ne_semicolon : e.text.getLast? ≠ some ';' := by
  unfold text
  cases hx : e.isExplicit with
  | true =>
    have hright : IsPart ';' e.right :=
      isPart_joinWith (by decide) (by decide) (by decide) fun x hmem => (h.exprs x hmem).2.1
    have hlast := hright.getLast?_ne rfl rfl
    rw [if_pos rfl, getLast?_append, getLast?_cons]
    cases hl : e.right.getLast? with
    | none => exact fun heq => absurd heq (by simp)
    | some c =>
      rw [hl] at hlast
      simpa using hlast
  | false =>
    have hblank := h.bare hx
    have htype : IsPart ';' e.type :=
      isPart_bare (bare_of_blank hblank) fun hm => absurd (hblank _ hm) (by decide)
    rw [if_neg Bool.false_ne_true]
    exact (h.isPart_left rfl rfl (by decide) htype).getLast?_ne rfl rfl

theorem plain : Plain e.text where
  noComment := h.noComment
  noBlockComment := h.not_startsWith rfl _
  noBackquote := h.noBackquote
  noSemicolon := endsWith_of_getLast? h.last_ne_semicolon

end ConstEntry.Valid

end Linewise
