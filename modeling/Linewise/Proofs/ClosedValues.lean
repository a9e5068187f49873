/-
  Values are closed: what a well-nested expression becomes is well nested.

  The square brackets of a type are left away, so what stands in them comes to top level:

      map[a;b]int    std::unordered_map<a;b, int>

  What else is built stands in braces or parentheses.
-/
import Linewise.Proofs.HeaderLine

namespace Linewise

open Text List Parameter

variable {a e s t : Text}

/-! ## 1. Parts of a written type -/

/-- **What is cut out of a well-nested type is well nested.** -/
theorem sheds_wellNested : Sheds WellNested where
  nil := wellNested_nil
  trim := WellNested.trim
  behind {head _ _} hhead hs h := by
    have hheads : ∀ w ∈ typeHeads, WellNested w ∧ w.getLast? ≠ some 'R' := by decide
    obtain ⟨hnested, hR⟩ := hheads head hhead
    exact (eq_append_of_stripStart? hs ▸ h).of_append hnested hR
  enclosed hk hs he h := by
    obtain ⟨r, rfl⟩ := startsWith_iff.mp hs
    obtain ⟨a, b, _, he', ha, hb⟩ := WellNested.enclosed hk h
    cases he.symm.trans he'
    exact ⟨ha, hb⟩
  typed {s a b} hs ha h := by
    obtain ⟨c, hc, rfl⟩ := eq_append_of_splitOnce? hs
    have hname : Bare a := bare_of_isIdentifier ha
    have hfront : Bare (a ++ [c]) := hname.append (bare_of_blank (forall_mem_singleton.mpr hc))
    refine ⟨hname.wellNested, WellNested.of_append (a := a ++ [c]) (by simpa using h) hfront.wellNested ?_⟩
    rw [getLast?_concat]
    rintro ⟨⟩
    cases hc
  part ht h := wellNested_of_mem_splitTop h rfl (by decide) ht
  bodiless {s} h := by
    have hbrace : stripEnd "\x7b" s = s := stripEnd_eq_self (h.not_endsWith rfl)
    rwa [hbrace]

namespace GoType

theorem composes_wellNested : Composes WellNested where
  toSheds := sheds_wellNested
  primitive := by decide +kernel
  void := by decide
  frame f hf ht := by
    have hends : ∀ f ∈ frames, WellNested f.1 ∧ WellNested f.2 ∧ f.1.getLast? ≠ some 'R' ∧ f.2.head? ≠ some '"' := by
      decide +kernel
    obtain ⟨hfront, hback, hR, hquote⟩ := hends f hf
    exact (hfront.append ht hR).join hback (.inr hquote)
  pair ha hb := (ha.join (by decide) (.inr (by decide))).append hb (by rw [getLast?_append_of_ne_nil _ (by decide)]; decide)
  call {r ps} hr hps := by
    rw [append_assoc, append_assoc]
    exact hr.join (hps.bracketed (o := '(') rfl) (joins_of_head (c := '(') (by decide) r (ps ++ [')']))

theorem isPart_cppType (h : WellNested s) (hs : ';' ∉ s) : IsPart ';' (cppType s) :=
  ⟨composes_wellNested.cppType h, topIndex?_of_not_mem ((composes_not_mem (by decide +kernel)).cppType hs)⟩

end GoType

/-! ## 2. Literals in C++ -/

theorem wellNested_built (ht : WellNested t) (hs : WellNested s) : WellNested (cppType t ++ braced s) :=
  (GoType.composes_wellNested.cppType ht).join (hs.bracketed rfl) (joins_braced _ s)

theorem wellNested_joined {parts : List Text} (h : ∀ p ∈ parts, WellNested p) : WellNested (joinWith ", " parts) :=
  GoType.composes_wellNested.joined h

theorem wellNested_of_whole (h : Whole ",:" s) : WellNested s := (h.part ',' (by decide)).wellNested

theorem InnerType.wellNested_allocation (u : InnerType) : WellNested u.allocation := by
  have hu := wellNested_of_whole u.whole
  unfold allocation
  split
  · rename_i pointee htext
    have hpointee : WellNested pointee := (htext ▸ hu).of_append (a := ['*']) (by decide) (by decide)
    exact WellNested.append (by decide) (GoType.composes_wellNested.cppType hpointee) (by decide)
  · exact wellNested_nil

mutual

theorem ValueExpr.wellNested_cpp : ∀ v : ValueExpr, WellNested v.cpp
  | .atom a => (a.whole.part ',' (by decide)).wellNested
  | .braces es => (wellNested_joined es.wellNested_cpps).bracketed rfl
  | .literal l => by
    show WellNested (if l.isPlain then l.cpp else l.go)
    split
    · exact l.wellNested_cpp
    · exact wellNested_of_whole l.whole
  | .address l => by
    show WellNested (if l.isPlain then "new " ++ l.cpp else "&" ++ l.go)
    split
    · exact WellNested.append (by decide) l.wellNested_cpp (by decide)
    · exact wellNested_of_whole (l.whole.address (by decide))

theorem LiteralExpr.wellNested_cpp : ∀ l : LiteralExpr, WellNested l.cpp
  | .typed t es => wellNested_built (wellNested_of_whole t.whole) (wellNested_joined es.wellNested_cpps)
  | .mapping m es => wellNested_built (wellNested_of_whole m.whole) (wellNested_joined (es.wellNested_cpps m.value))

theorem ElementExprs.wellNested_cpps : ∀ es : ElementExprs, ∀ p ∈ es.cpps, WellNested p
  | .nil => fun _ hp => absurd hp not_mem_nil
  | .plain v es => forall_mem_cons.mpr ⟨v.wellNested_cpp, es.wellNested_cpps⟩
  | .keyed name v es => by
    have hkey : Bare ("." ++ name.text ++ " = ") :=
      ((by decide : Bare (".": Text)).append (bare_of_isIdentifier name.valid)).append (by decide)
    have hlast : ("." ++ name.text ++ " = ").getLast? ≠ some 'R' := by
      rw [getLast?_append_of_ne_nil _ (by decide)]
      decide
    exact forall_mem_cons.mpr ⟨hkey.wellNested.append v.wellNested_cpp hlast, es.wellNested_cpps⟩

theorem EntryExprs.wellNested_cpps (u : InnerType) : ∀ es : EntryExprs, ∀ p ∈ es.cpps u, WellNested p
  | .nil => fun _ hp => absurd hp not_mem_nil
  | .cons key v es => by
    have hvalue : WellNested ((if v.isBraces then u.allocation else []) ++ v.cpp) := by
      cases v with
      | braces vs => exact u.wellNested_allocation.join (ValueExpr.braces vs).wellNested_cpp (joins_braced _ _)
      | atom a => exact (ValueExpr.atom a).wellNested_cpp
      | literal l => exact (ValueExpr.literal l).wellNested_cpp
      | address l => exact (ValueExpr.address l).wellNested_cpp
    have hpair := GoType.composes_wellNested.pair (key.whole.part ',' (by decide)).wellNested hvalue
    exact forall_mem_cons.mpr ⟨hpair.bracketed rfl, es.wellNested_cpps u⟩

end

theorem LiteralExpr.isPart_cpp {l : LiteralExpr} (h : ';' ∉ l.type) : IsPart ';' l.cpp := by
  have hbuilt {t s : Text} (ht : Whole ",:" t) (hsemi : ';' ∉ t) (hs : WellNested s) :
      IsPart ';' (cppType t ++ braced s) :=
    (GoType.isPart_cppType (wellNested_of_whole ht) hsemi).join (IsPart.bracketed rfl (by decide) hs) (joins_braced _ s)
  cases l with
  | typed t es => exact hbuilt t.whole h (wellNested_joined es.wellNested_cpps)
  | mapping m es => exact hbuilt m.whole h (wellNested_joined (es.wellNested_cpps m.value))

/-! ## 3. Values -/

/-- The text of a call of `make`. -/
def makeCall (type : Text) (sizes : List Text) : Text := "make(" ++ (joinWith ", " (type :: sizes) ++ ")")

theorem trim_makeCall (type : Text) (sizes : List Text) : trim (makeCall type sizes) = makeCall type sizes := by
  refine trim_eq_self_of_solid ⟨solidStart_cons rfl _, solidEnd_of_last (c := ')') ?_ rfl⟩
  rw [makeCall, ← append_assoc]
  exact getLast?_concat

/-- An expression that stands as it is, or builds something of a type without a semicolon. -/
inductive Initializer : Text → Prop
  | standing {e : Text} (h : value e = .ok e) : Initializer e
  | literal (l : LiteralExpr) (h : ';' ∉ l.type) : Initializer l.go
  | address (l : LiteralExpr) (h : ';' ∉ l.type) : Initializer ("&" ++ l.go)
  | made {type : Text} {sizes : List Text} (h : ∀ p ∈ type :: sizes, IsElement p) (hsemi : ';' ∉ type) :
      Initializer (makeCall type sizes)

theorem isPart_constructMake {type : Text} {sizes : List Text} (h : ∀ p ∈ type :: sizes, IsElement p)
    (hsemi : ';' ∉ type) {c : Construction} (hc : constructMake (joinWith ", " (type :: sizes)) = some c) :
    IsPart ';' c.temporary := by
  obtain ⟨htype, hsizes⟩ := forall_mem_cons.mp h
  have hspelled := GoType.isPart_cppType htype.part.wellNested hsemi
  have hbuilt : IsPart ';' (cppType type ++ braced []) :=
    hspelled.join (IsPart.bracketed rfl (by decide) wellNested_nil) (joins_braced _ [])
  rw [constructMake, splitTop_list h] at hc
  dsimp only at hc
  split at hc
  · cases hc
    exact hbuilt
  · split at hc
    · cases sizes with
      | nil =>
        cases hc
        exact hbuilt
      | cons size more =>
        cases hc
        have hround : IsPart ';' ("(" ++ size ++ ")") :=
          IsPart.bracketed (o := '(') rfl (by decide) (hsizes size mem_cons_self).part.wellNested
        exact hspelled.join hround (joins_of_head (by decide) _ _)
    · cases hc

theorem construct_makeCall {type : Text} {sizes : List Text} (h : ∀ p ∈ type :: sizes, IsElement p) :
    construct (makeCall type sizes) = .ok (constructMake (joinWith ", " (type :: sizes))) := by
  have hlist : WellNested (joinWith ", " (type :: sizes)) := wellNested_list fun p hp => (h p hp).part
  have hinside : enclosed? ("(" ++ (joinWith ", " (type :: sizes) ++ ")")) = some (joinWith ", " (type :: sizes), []) :=
    enclosed?_eq (o := '(') rfl hlist []
  have hcall : callArguments? "make" (makeCall type sizes) = some (joinWith ", " (type :: sizes)) := by
    unfold callArguments?
    rw [show stripStart? "make" (makeCall type sizes) = some ("(" ++ (joinWith ", " (type :: sizes) ++ ")")) from
      stripStart?_append "make" _]
    exact (congrArg (Option.bind · _) hinside).trans rfl
  rw [construct_eq_match, trim_makeCall, hcall]

theorem Initializer.exists_value (h : Initializer e) (he : IsPart ';' e) : ∃ t, value e = .ok t ∧ IsPart ';' t := by
  cases h with
  | standing h => exact ⟨e, h, he⟩
  | literal l hsemi =>
    have htrim := trim_eq_self_of_solid l.whole.solid
    cases hplain : l.isPlain with
    | true =>
      obtain ⟨c, hc, htext⟩ := l.construct_eq hplain
      exact ⟨_, value_eq htrim l.head?_go.2 hc, (htext ▸ LiteralExpr.isPart_cpp hsemi : IsPart ';' c.temporary)⟩
    | false => exact ⟨_, value_eq htrim l.head?_go.2 (l.construct_eq_none hplain).1, he⟩
  | address l hsemi =>
    cases hplain : l.isPlain with
    | true =>
      obtain ⟨c, hc, htext⟩ := l.construct_eq hplain
      refine ⟨_, value_address l.whole hc, ?_⟩
      rw [htext]
      exact (isPart_bare (by decide) (by decide)).join (LiteralExpr.isPart_cpp hsemi) (.inl (by decide))
    | false =>
      obtain ⟨hc, hc'⟩ := l.construct_eq_none hplain
      exact ⟨_, value_address_eq_self l.whole hc hc', he⟩
  | @made type sizes hparts hsemi =>
    refine ⟨_, value_eq (trim_makeCall type sizes) nofun (construct_makeCall hparts), ?_⟩
    cases hc : constructMake (joinWith ", " (type :: sizes)) with
    | none => exact he
    | some c => exact isPart_constructMake hparts hsemi hc

end Linewise
