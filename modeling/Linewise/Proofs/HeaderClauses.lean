/-
  Definitions of several names in the head of a branch or a loop.

  C++ has one clause before a condition. A definition of several names does not fit into it:

      if a, b := e, f; c {          if (auto a = e;
                                    auto b = f; c) {
      for a, b := e, f; c; p {      for (auto a, b = e, f; c; p) {

  A branch has as many clauses as names. A loop has three, the first with a value for the last name
  only.
-/
import Linewise.Proofs.ClosedValues
import Linewise.Proofs.ReadingOrder

namespace Linewise

open Text List Lower

variable {e t : Text} {c : Construction} {x : Declared}

/-! ## 1. Values at their end -/

theorem dropEndWhile_concat {p : Char → Bool} {c : Char} (hc : p c = true) (s : Text) :
    dropEndWhile p (s ++ [c]) = dropEndWhile p s :=
  rdropWhile_concat_pos p s c hc

theorem getLast?_constructMake {args : Text} (h : constructMake args = some c) :
    c.init.getLast? = some '}' ∨ c.init.getLast? = some ')' := by
  unfold constructMake at h
  split at h
  · cases h
  · split at h
    · cases h
      exact .inl (getLast?_append_braced [] _)
    · split at h
      · split at h
        · cases h
          exact .inl (getLast?_append_braced [] _)
        · cases h
          exact .inr getLast?_concat
      · cases h

theorem getLast?_constructLiteral {type list : Text} (h : constructLiteral type list = .ok (some c)) :
    c.init.getLast? = some '}' := by
  have hbraced (s : Text) : (braced s).getLast? = some '}' := getLast?_append_braced [] s
  unfold constructLiteral at h
  split at h
  · rename_i valueType _
    obtain ⟨entries, _, h⟩ := exists_ok_of_bind h
    cases h
    exact hbraced _
  · split at h
    · cases h
      exact hbraced _
    · split at h
      · cases h
        exact hbraced _
      · cases h

theorem getLast?_construct (h : construct e = .ok (some c)) :
    c.init.getLast? = some '}' ∨ c.init.getLast? = some ')' := by
  rw [construct_eq_match] at h
  split at h
  · exact getLast?_constructMake (Except.ok.inj h)
  · split at h
    · cases h
    · exact .inl (getLast?_constructLiteral h)

theorem eq_of_value (h : value e = .ok t) :
    t = trim e ∨ ∃ before inner c, construct inner = .ok (some c) ∧ t = before ++ c.init := by
  have hplain (h : (do return ((← construct (trim e)).map (·.temporary)).getD (trim e) : Except Fault Text) = .ok t) :
      t = trim e ∨ ∃ before inner c, construct inner = .ok (some c) ∧ t = before ++ c.init := by
    obtain ⟨built, hc, h⟩ := exists_ok_of_bind h
    cases built with
    | none => exact .inl (Except.ok.inj h).symm
    | some c => exact .inr ⟨c.type, _, c, hc, (Except.ok.inj h).symm⟩
  unfold value at h
  split at h
  · rename_i inner _
    obtain ⟨built, hc, h⟩ := exists_ok_of_bind h
    cases built with
    | none => exact hplain h
    | some c =>
      refine .inr ⟨"new " ++ c.type, inner, c, hc, ?_⟩
      rw [append_assoc]
      exact (Except.ok.inj h).symm
  · exact hplain h

theorem getLast?_value (he : Whole ";" e) (h : value e = .ok t) :
    ∃ c, t.getLast? = some c ∧ isBlank c = false ∧ c ≠ ';' := by
  rcases eq_of_value h with rfl | ⟨before, inner, built, hbuilt, rfl⟩
  · rw [trim_eq_self_of_solid he.solid]
    obtain ⟨c, hc⟩ := Option.ne_none_iff_exists'.mp fun hn => he.ne_nil (getLast?_eq_none_iff.mp hn)
    refine ⟨c, hc, he.solid.2 c hc, ?_⟩
    rintro rfl
    exact (he.part ';' (by decide)).getLast?_ne rfl rfl hc
  · rcases getLast?_construct hbuilt with hlast | hlast
    · exact ⟨'}', mem_getLast?_append_of_mem_getLast? hlast, rfl, by decide⟩
    · exact ⟨')', mem_getLast?_append_of_mem_getLast? hlast, rfl, by decide⟩

/-! ## 2. Heads -/

/-- A definition of several names in a head: no blank name, and no semicolon at top level of a value. -/
structure HeadDefinition extends ParallelDefinition where
  named : ∀ n ∈ names, isDiscard n.text = false
  whole : ∀ e ∈ exprs, IsPart ';' e

theorem list_ne_nil {parts : List Text} (hne : parts ≠ []) (h : ∀ p ∈ parts, IsElement p) :
    joinWith ", " parts ≠ [] := by
  obtain ⟨p, ps, rfl⟩ := exists_cons_of_ne_nil hne
  exact joinWith_ne_nil ", " (h p mem_cons_self).ne_nil ps

namespace HeadDefinition

variable (d : HeadDefinition)

theorem map_text_ne_nil : d.names.map Ident.text ≠ [] := by
  intro h
  have := d.several
  rw [← length_map, h] at this
  exact absurd this (by decide)

theorem exprs_ne_nil : d.exprs ≠ [] := by
  intro h
  have := d.several
  rw [d.paired, h] at this
  exact absurd this (by decide)

theorem whole_signed {sign : Text} (hsign : IsPart ';' sign) (hne : sign ≠ []) (hhead : sign.head? ≠ some '"')
    (hlast : sign.getLast? ≠ some 'R') :
    Whole ";" (joinWith ", " (d.names.map Ident.text) ++ (sign ++ joinWith ", " d.exprs)) where
  part c hc := by
    obtain rfl := mem_singleton.mp hc
    have hnames : IsPart ';' (joinWith ", " (d.names.map Ident.text)) :=
      isPart_bare (bare_names d.isIdentifier_name) (not_mem_names d.isIdentifier_name rfl (by decide))
    have hexprs : IsPart ';' (joinWith ", " d.exprs) :=
      isPart_joined (by decide) (by decide) (by decide) (by decide) d.whole
    have hmeet : (sign ++ joinWith ", " d.exprs).head? ≠ some '"' := by
      rwa [head?_append_of_ne_nil _ hne]
    exact hnames.join (hsign.join hexprs (.inl hlast)) (.inr hmeet)
  solid := solid_around (solid_list d.isElement_name) (list_ne_nil d.map_text_ne_nil d.isElement_name)
    (solid_list d.elements) (list_ne_nil d.exprs_ne_nil d.elements) sign
  ne_nil := append_ne_nil_of_left_ne_nil (list_ne_nil d.map_text_ne_nil d.isElement_name) _

theorem whole_go : Whole ";" d.go := d.whole_signed (by decide) (by decide) (by decide) (by decide)

end HeadDefinition

/-- The head of a branch: a definition and a condition. -/
structure BranchHead where
  init : HeadDefinition
  cond : Text
  whole : Whole ";" cond

namespace BranchHead

variable (h : BranchHead)

/-- Both clauses of the head. -/
def text : Text := h.init.go ++ ("; " ++ h.cond)

/-- The line of a condition. -/
def ifLine : Text := "if " ++ (h.text ++ " \x7b")

/-- The line of a further condition. -/
def elseLine : Text := "\x7d else if " ++ (h.text ++ " \x7b")

end BranchHead

/-- The head of a loop without `range`: a definition, a condition and what is done after each round. -/
structure LoopHead where
  init : HeadDefinition
  cond : Text
  post : Text
  condPart : IsPart ';' cond
  condSolid : Solid cond
  postPart : IsPart ';' post
  postSolid : Solid post
  noRange : indexOf? rangeWord (mask (trim (init.go ++ ("; " ++ (cond ++ ("; " ++ post)))))) = none

namespace LoopHead

variable (h : LoopHead)

/-- The three clauses of the head. -/
def text : Text := h.init.go ++ ("; " ++ (h.cond ++ ("; " ++ h.post)))

/-- The line of the loop. -/
def line : Text := "for " ++ (h.text ++ " \x7b")

end LoopHead

/-! ## 3. Clauses -/

theorem splitTop_clauses {p : Text} (hp : Whole ";" p) {ps : List (Char × Text)}
    (h : ∀ q ∈ ps, q.1 ∈ (" \n" : Text) ∧ IsPart ';' q.2 ∧ Solid q.2) :
    splitTop ';' (joinWith [';'] (p :: ps.map fun q => q.1 :: q.2)) = p :: ps.map Prod.snd := by
  have hparts : ∀ q ∈ p :: ps.map (fun q => q.1 :: q.2), IsPart ';' q := by
    intro q hq
    rcases mem_cons.mp hq with rfl | hq
    · exact hp.part ';' (by decide)
    · obtain ⟨⟨b, q⟩, hmem, rfl⟩ := mem_map.mp hq
      have hfront : ∀ b ∈ (" \n" : Text), IsPart ';' [b] ∧ [b].getLast? ≠ some 'R' := by decide
      obtain ⟨hb, hR⟩ := hfront b (h _ hmem).1
      exact hb.join (h _ hmem).2.1 (.inl hR)
  have hall : isAllBlank (joinWith [';'] (p :: ps.map fun q => q.1 :: q.2)) = false := by
    obtain ⟨c, r, rfl⟩ := exists_cons_of_ne_nil hp.ne_nil
    rw [joinWith_head, isAllBlank, all_cons, hp.solid.1 c rfl, Bool.false_and]
  have htrim : ∀ q ∈ ps, trim (q.1 :: q.2) = q.2 := by
    intro q hq
    have hb : Blank [q.1] := by
      intro c hc
      have hspace : ∀ b ∈ (" \n" : Text), isBlank b = true := by decide
      exact mem_singleton.mp hc ▸ hspace q.1 (h q hq).1
    exact (trim_blank_append hb q.2).trans (trim_eq_self_of_solid (h q hq).2.2)
  rw [splitTop_joinWith (by decide) (by decide) hparts hall, map_cons, trim_eq_self_of_solid hp.solid,
    map_map]
  exact congrArg (p :: ·) (map_congr_left htrim)

theorem splitTop_three {p cond post : Text} (hp : Whole ";" p) (hcond : IsPart ';' cond) (hcond' : Solid cond)
    (hpost : IsPart ';' post) (hpost' : Solid post) :
    splitTop ';' (p ++ ("; " ++ (cond ++ ("; " ++ post)))) = [p, cond, post] := by
  have hjoin : p ++ ("; " ++ (cond ++ ("; " ++ post)))
      = joinWith [';'] (p :: [(' ', cond), (' ', post)].map fun q => q.1 :: q.2) := by
    rw [map_cons, map_cons, map_nil, joinWith_cons_cons, joinWith_cons_cons, joinWith_singleton]
    simp
  have hspace : ' ' ∈ (" \n" : Text) := by decide
  rw [hjoin, splitTop_clauses hp]
  · rfl
  · intro q hq
    rcases mem_cons.mp hq with rfl | hq
    · exact ⟨hspace, hcond, hcond'⟩
    · rw [mem_singleton.mp hq]
      exact ⟨hspace, hpost, hpost'⟩

theorem joinWith_clauses (p : Text) (ps : List Text) (last : Text) :
    joinWith ";\n" (p :: ps) ++ "; " ++ last
      = joinWith [';'] (p :: (ps.map ('\n', ·) ++ [(' ', last)]).map fun q => q.1 :: q.2) := by
  induction ps generalizing p with
  | nil =>
    show _ = joinWith [';'] [p, ' ' :: last]
    rw [joinWith_singleton, joinWith_cons_cons, joinWith_singleton]
    simp
  | cons q ps ih =>
    rw [map_cons, cons_append, map_cons, joinWith_cons_cons, joinWith_cons_cons, joinWith_head, ← ih]
    simp

/-! ## 4. Branches -/

theorem headText_spaced (s : Text) : headText (" " ++ (s ++ " \x7b")) = trim s := by
  have hbrace : (" " ++ (s ++ " \x7b") : Text) = (" " ++ (s ++ " ")) ++ ['{'] := by simp
  have hblank : Blank " " := by decide
  rw [hbrace, headText]
  exact (trim_stripEnd_concat rfl _).trans (trim_append_of_blank hblank hblank)

/-- The definition of one name as a clause. -/
def Declared.clause (x : Declared) : Text := "auto " ++ x.name ++ " = " ++ x.init

theorem Declared.clause_eq (x : Declared) : x.clause = "auto " ++ x.name ++ " = " ++ x.init := rfl

theorem unlines_terminated {ps : List Text} (hne : ps ≠ []) :
    unlines (ps.map (· ++ (";" : Text))) = joinWith ";\n" ps ++ ";" := by
  induction ps with
  | nil => exact absurd rfl hne
  | cons p ps ih =>
    cases ps with
    | nil => rw [map_cons, map_nil, unlines_singleton, joinWith_singleton]
    | cons q ps =>
      have hrest := ih (cons_ne_nil q ps)
      rw [map_cons] at hrest
      rw [map_cons, map_cons, unlines_cons_cons, hrest, joinWith_cons_cons]
      simp

namespace HeadDefinition

variable (d : HeadDefinition) {inits : List Text}

theorem initClause_go : initClause d.go = do
    return dropEndWhile (· == ';') (← assignment d.go).renderD := by
  unfold initClause
  rw [trim_eq_self_of_solid d.whole_go.solid]
  dsimp only
  rw [d.split?_go]
  simp

theorem mem_declared (hx : x ∈ d.declared inits) : (∃ n ∈ d.names, x.name = n.text) ∧ x.init ∈ inits := by
  rw [ParallelDefinition.declared, ← map_uncurry_zip_eq_zipWith] at hx
  obtain ⟨p, hp, rfl⟩ := mem_map.mp hx
  obtain ⟨hname, hinit⟩ := of_mem_zip hp
  obtain ⟨n, hn, he⟩ := mem_map.mp hname
  exact ⟨⟨n, hn, he.symm⟩, hinit⟩

theorem declared_ne_nil (hinits : d.exprs.mapM value = .ok inits) : d.declared inits ≠ [] := by
  intro hnil
  have hnames := d.map_name_declared ((length_of_mapM hinits).trans d.paired.symm)
  rw [hnil] at hnames
  exact d.map_text_ne_nil hnames.symm

theorem getLast?_clause (hinits : d.exprs.mapM value = .ok inits) (hx : x ∈ d.declared inits) :
    ∃ c, x.clause.getLast? = some c ∧ isBlank c = false ∧ c ≠ ';' := by
  obtain ⟨e, he, hvalue⟩ := (exists_of_mapM hinits).1 _ (d.mem_declared hx).2
  have hwhole : Whole ";" e :=
    ⟨fun c hc => mem_singleton.mp hc ▸ d.whole e he, (d.elements e he).solid, (d.elements e he).ne_nil⟩
  obtain ⟨c, hc, hlast⟩ := getLast?_value hwhole hvalue
  rw [Declared.clause_eq]
  exact ⟨c, mem_getLast?_append_of_mem_getLast? hc, hlast⟩

theorem whole_clause (hinits : d.exprs.mapM value = .ok inits) (hparts : ∀ v ∈ inits, IsPart ';' v)
    (hx : x ∈ d.declared inits) : Whole ";" x.clause where
  part c hc := by
    obtain rfl := mem_singleton.mp hc
    obtain ⟨⟨n, _, hname⟩, hinit⟩ := d.mem_declared hx
    have hstart : IsPart ';' ("auto " ++ x.name ++ " = ") := by
      rw [hname]
      have hbare : Bare ("auto " ++ n.text ++ " = ") :=
        ((by decide : Bare "auto ").append (bare_of_isIdentifier n.valid)).append (by decide)
      refine isPart_bare hbare (not_mem_append (not_mem_append (by decide) ?_) (by decide))
      exact not_mem_of_isIdentifier n.valid rfl
    exact hstart.join (hparts x.init hinit) (.inl (by rw [getLast?_append_of_ne_nil _ (by decide)]; decide))
  solid := by
    obtain ⟨c, hc, hblank, _⟩ := d.getLast?_clause hinits hx
    exact ⟨solidStart_cons rfl _, solidEnd_of_last hc hblank⟩
  ne_nil := by simp [Declared.clause_eq]

theorem exists_inits (h : ∀ e ∈ d.exprs, Initializer e) :
    ∃ inits, d.exprs.mapM value = .ok inits ∧ ∀ v ∈ inits, IsPart ';' v := by
  have hvalue (e : Text) (he : e ∈ d.exprs) := (h e he).exists_value (d.whole e he)
  cases hinits : d.exprs.mapM value with
  | error f =>
    obtain ⟨e, he, hf⟩ := exists_error_of_mapM hinits
    obtain ⟨t, ht, _⟩ := hvalue e he
    cases ht.symm.trans hf
  | ok inits =>
    refine ⟨inits, rfl, fun v hv => ?_⟩
    obtain ⟨e, he, hev⟩ := (exists_of_mapM hinits).1 _ hv
    obtain ⟨t, ht, hpart⟩ := hvalue e he
    cases ht.symm.trans hev
    exact hpart

theorem dropEndWhile_declared (hinits : d.exprs.mapM value = .ok inits) :
    dropEndWhile (· == ';') (unlines ((d.declared inits).map Declared.text))
      = joinWith ";\n" ((d.declared inits).map Declared.clause) := by
  have htext : (d.declared inits).map Declared.text
      = ((d.declared inits).map Declared.clause).map (· ++ (";" : Text)) := by
    rw [map_map]
    refine map_congr_left fun x hx => ?_
    obtain ⟨n, hn, hname⟩ := (d.mem_declared hx).1
    rw [Declared.text, defineOne, hname, d.named n hn, ← hname]
    rfl
  have hclause : ∀ p ∈ (d.declared inits).map Declared.clause, p ≠ [] := by
    intro p hp
    obtain ⟨x, _, rfl⟩ := mem_map.mp hp
    simp [Declared.clause_eq]
  rw [htext, unlines_terminated (by simpa using d.declared_ne_nil hinits)]
  refine (dropEndWhile_concat rfl _).trans (dropEndWhile_eq_self fun c hc => ?_)
  obtain ⟨p, hp, hlast⟩ := getLast?_joinWith hclause hc
  obtain ⟨x, hx, rfl⟩ := mem_map.mp hp
  obtain ⟨c', hc', _, hne⟩ := d.getLast?_clause hinits hx
  obtain rfl : c' = c := Option.some.inj (hc'.symm.trans hlast)
  exact beq_eq_false_iff_ne.mpr hne

end HeadDefinition

namespace BranchHead

variable (h : BranchHead) {inits : List Text} {s : State}

/-- What stands in the parentheses. -/
def emitted (inits : List Text) : Text :=
  joinWith ";\n" ((h.init.declared inits).map Declared.clause) ++ "; " ++ h.cond

theorem solid_text : Solid h.text :=
  solid_around h.init.whole_go.solid h.init.whole_go.ne_nil h.whole.solid h.whole.ne_nil _

theorem condition_head : condition (" " ++ (h.text ++ " \x7b")) = do
    return dropEndWhile (· == ';') (← assignment h.init.go).renderD ++ "; " ++ h.cond := by
  have hindex : topIndex? ';' h.text = some h.init.go.length := by
    have hjoins : Joins h.init.go ("; " ++ h.cond) := joins_of_head (by decide) _ (' ' :: h.cond)
    have hzero : topIndex? ';' ("; " ++ h.cond) = some 0 := rfl
    rw [text, topIndex?_join (h.init.whole_go.part ';' (by decide)) hjoins, hzero, Option.map_some, Nat.zero_add]
  have hcond : trim (h.text.drop (h.init.go.length + 1)) = h.cond := by
    rw [text, drop_length_add_append]
    exact trim_space_of_solid h.whole.solid
  unfold condition
  rw [headText_spaced, trim_eq_self_of_solid h.solid_text]
  dsimp only
  rw [hindex]
  dsimp only
  rw [hcond, show h.text.take h.init.go.length = h.init.go from take_left, h.init.initClause_go]
  simp

/-- The line that a branch becomes, from what is in front of its condition on. -/
def lower (front : Text) : Lower Lowered := do
  let statements ← assignment h.init.go
  return .line (front ++ (dropEndWhile (· == ';') statements.renderD ++ "; " ++ h.cond) ++ ") \x7b")

theorem lower_run (hliteral : h.init.binding.isLiteral = false) (front : Text) :
    (h.lower front).run s
      = match h.init.exprs.mapM value with
        | .ok inits => .ok (.line (front ++ h.emitted inits ++ ") \x7b")) s
        | .error f => .error (.fault f) s := by
  rw [lower, EStateM.run_bind, (h.init.assignment_go s).2 hliteral]
  cases hinits : h.init.exprs.mapM value with
  | error f => rfl
  | ok inits =>
    refine congrArg (fun t => EStateM.Result.ok (Lowered.line (front ++ (t ++ "; " ++ h.cond) ++ ") \x7b")) s) ?_
    exact h.init.dropEndWhile_declared hinits

theorem splitTop_emitted (hinits : h.init.exprs.mapM value = .ok inits) (hparts : ∀ v ∈ inits, IsPart ';' v) :
    splitTop ';' (h.emitted inits) = (h.init.declared inits).map Declared.clause ++ [h.cond] := by
  have hclause : ∀ p ∈ (h.init.declared inits).map Declared.clause, Whole ";" p := by
    intro p hp
    obtain ⟨x, hx, rfl⟩ := mem_map.mp hp
    exact h.init.whole_clause hinits hparts hx
  obtain ⟨p, ps, hps⟩ := exists_cons_of_ne_nil
    (show (h.init.declared inits).map Declared.clause ≠ [] by simpa using h.init.declared_ne_nil hinits)
  rw [hps] at hclause
  rw [emitted, hps, joinWith_clauses, splitTop_clauses (hclause p mem_cons_self)]
  · rw [map_append, map_map]
    exact congrArg (p :: · ++ [h.cond]) (map_id ps)
  · intro q hq
    rcases mem_append.mp hq with hq | hq
    · obtain ⟨c, hc, rfl⟩ := mem_map.mp hq
      have hwhole := hclause c (mem_cons_of_mem p hc)
      exact ⟨show '\n' ∈ (" \n" : Text) by decide, hwhole.part ';' (by decide), hwhole.solid⟩
    · rw [mem_singleton.mp hq]
      exact ⟨show ' ' ∈ (" \n" : Text) by decide, h.whole.part ';' (by decide), h.whole.solid⟩

theorem length_splitTop_emitted (hinits : h.init.exprs.mapM value = .ok inits) (hparts : ∀ v ∈ inits, IsPart ';' v) :
    (splitTop ';' (h.emitted inits)).length = h.init.names.length + 1 := by
  have hnames := h.init.map_name_declared ((length_of_mapM hinits).trans h.init.paired.symm)
  rw [h.splitTop_emitted hinits hparts, length_append, length_map, length_singleton]
  simpa using congrArg length hnames

theorem ifStatement_ifLine : ifStatement h.ifLine = h.lower "if (" := by
  have hstrip : stripStart "if" h.ifLine = " " ++ (h.text ++ " \x7b") := stripStart_append "if" _
  rw [ifStatement, hstrip, condition_head, lower]
  simp

theorem elseIf_elseLine : elseIf h.elseLine = h.lower "\x7d else if (" := by
  have hstrip : stripStart "\x7d else if" h.elseLine = " " ++ (h.text ++ " \x7b") :=
    stripStart_append "\x7d else if" _
  rw [elseIf, hstrip, condition_head, lower]
  simp

end BranchHead

/-! ## 5. Loops -/

theorem joinWith_cons (sep p : Text) {ps : List Text} (hne : ps ≠ []) :
    joinWith sep (p :: ps) = p ++ (sep ++ joinWith sep ps) := by
  obtain ⟨q, qs, rfl⟩ := exists_cons_of_ne_nil hne
  exact joinWith_cons_cons sep p q qs

theorem joinWith_middle (sep : Text) (front : List Text) (a mid b : Text) (rest : List Text) :
    joinWith sep (front ++ [a]) ++ (mid ++ joinWith sep (b :: rest))
      = joinWith sep (front ++ (a ++ (mid ++ b)) :: rest) := by
  induction front with
  | nil =>
    rw [nil_append, nil_append, joinWith_singleton]
    cases rest with
    | nil => rw [joinWith_singleton, joinWith_singleton]
    | cons q qs => rw [joinWith_cons_cons, joinWith_cons_cons, append_assoc, append_assoc]
  | cons p front ih =>
    rw [cons_append, cons_append, joinWith_cons sep p (by simp), joinWith_cons sep p (by simp), ← ih]
    simp

/-- A declarator: what it declares, and the value if there is one. -/
def declarator (s : Text) : Text × Option Text :=
  match Binding.split? s with
  | some b => (b.lhs, some b.rhs)
  | none => (s, none)

/-- The declarators of a clause `auto …`. -/
def declarators (clause : Text) : List (Text × Option Text) :=
  (splitTop ',' (stripStart "auto " clause)).map declarator

theorem declarator_name (n : Ident) : declarator n.text = (n.text, none) := by
  have hequal : '=' ∉ n.text := not_mem_of_isIdentifier n.valid rfl
  have hnone := Binding.signFrom?_append (bare_of_isIdentifier n.valid) hequal [] (l := Lexer.start) rfl
  rw [append_nil] at hnone
  unfold declarator Binding.split?
  rw [hnone]
  rfl

theorem declarator_init (n : Ident) (he : IsElement e) :
    declarator (n.text ++ (" = " ++ e)) = (n.text, some e) := by
  have hequal : '=' ∉ n.text := not_mem_of_isIdentifier n.valid rfl
  unfold declarator
  rw [Binding.split?_assign (bare_of_isIdentifier n.valid) hequal, n.isElement.trim_eq, he.trim_eq]

namespace HeadDefinition

variable (d : HeadDefinition)

/-- The first clause of a loop. -/
def loopInit : Text := "auto " ++ (joinWith ", " (d.names.map Ident.text) ++ (" = " ++ joinWith ", " d.exprs))

theorem loopInit_go : Lower.loopInit d.go = d.loopInit := by
  rw [Lower.loopInit, d.split?_go]
  show "auto " ++ joinWith ", " (d.names.map Ident.text) ++ " = " ++ joinWith ", " d.exprs = d.loopInit
  rw [append_assoc, append_assoc]
  rfl

theorem whole_loopInit : Whole ";" d.loopInit := by
  have hsigned : Whole ";" (joinWith ", " (d.names.map Ident.text) ++ (" = " ++ joinWith ", " d.exprs)) :=
    d.whole_signed (by decide) (by decide) (by decide) (by decide)
  refine ⟨fun c hc => ?_, ⟨solidStart_cons rfl _, SolidEnd.append hsigned.solid.2 hsigned.ne_nil _⟩, nofun⟩
  obtain rfl := mem_singleton.mp hc
  exact (isPart_bare (by decide) (by decide)).join (hsigned.part ';' (by decide)) (.inl (by decide))

/-- Only the last name has a value, the first one. -/
theorem declarators_loopInit : ∃ front last first rest, d.names = front ++ [last] ∧ d.exprs = first :: rest ∧
    declarators d.loopInit
      = front.map (fun n => (n.text, none)) ++ (last.text, some first) :: rest.map declarator := by
  obtain ⟨first, rest, hexprs⟩ := exists_cons_of_ne_nil d.exprs_ne_nil
  obtain ⟨front, last, hnames⟩ : ∃ front last, d.names = front ++ [last] := by
    rcases eq_nil_or_concat' d.names with hnil | ⟨front, last, hconcat⟩
    · exact absurd (by rw [hnil]; rfl) d.map_text_ne_nil
    · exact ⟨front, last, hconcat⟩
  refine ⟨front, last, first, rest, hnames, hexprs, ?_⟩
  have hfirst : IsElement first := d.elements first (hexprs ▸ mem_cons_self)
  have hlist : stripStart "auto " d.loopInit
      = joinWith ", " (front.map Ident.text ++ (last.text ++ (" = " ++ first)) :: rest) := by
    rw [show stripStart "auto " d.loopInit = _ from stripStart_append "auto " _, hnames, hexprs, map_append]
    exact joinWith_middle ", " _ last.text " = " first rest
  have helements : ∀ p ∈ front.map Ident.text ++ (last.text ++ (" = " ++ first)) :: rest, IsElement p := by
    intro p hp
    rcases mem_append.mp hp with hp | hp
    · obtain ⟨n, _, rfl⟩ := mem_map.mp hp
      exact n.isElement
    · rcases mem_cons.mp hp with rfl | hp
      · exact isElement_pair (by decide) (by decide) (by decide) (by decide) last.isElement hfirst
      · exact d.elements p (hexprs ▸ mem_cons_of_mem first hp)
  rw [declarators, hlist, splitTop_list helements, map_append, map_cons, declarator_init last hfirst,
    map_map]
  exact congrArg (· ++ _) (map_congr_left fun n _ => declarator_name n)

end HeadDefinition

namespace LoopHead

variable (h : LoopHead)

/-- What stands in the parentheses. -/
def emitted : Text := h.init.loopInit ++ "; " ++ h.cond ++ "; " ++ h.post

theorem splitTop_text : splitTop ';' h.text = [h.init.go, h.cond, h.post] :=
  splitTop_three h.init.whole_go h.condPart h.condSolid h.postPart h.postSolid

theorem splitTop_emitted : splitTop ';' h.emitted = [h.init.loopInit, h.cond, h.post] := by
  have hthree := splitTop_three h.init.whole_loopInit h.condPart h.condSolid h.postPart h.postSolid
  rwa [← append_assoc, ← append_assoc, ← append_assoc] at hthree

theorem trim_text : ∃ (n : Ident) (r : Text), trim h.text = n.text ++ ',' :: r := by
  obtain ⟨n, m, names, hnames⟩ : ∃ n m names, h.init.names = n :: m :: names := by
    match hn : h.init.names, h.init.several with
    | n :: m :: names, _ => exact ⟨n, m, names, rfl⟩
  obtain ⟨r, hr⟩ : ∃ r : Text, h.text = n.text ++ ',' :: r := by
    rw [text, ParallelDefinition.go, hnames, map_cons, map_cons, joinWith_cons_cons, append_assoc,
      append_assoc]
    exact ⟨_, rfl⟩
  have hhead := SolidStart.append n.isElement.solid.1 n.isElement.ne_nil (',' :: r)
  exact ⟨n, trimEnd r, by rw [hr, trim, trimStart_eq_self_of_head hhead, trimEnd_append_cons rfl]⟩

theorem splitRange?_text : splitRange? (trim h.text) = none := by
  obtain ⟨n, r, hr⟩ := h.trim_text
  have hname : startsWith n.text "range " = false :=
    startsWith_eq_false (c := ' ') (by decide) (not_mem_of_isIdentifier n.valid rfl)
  have hstrip : stripStart? "range " (trim h.text) = none := by
    rw [hr]
    exact stripStart?_eq_none ((startsWith_append_cons (by decide) _ _).trans hname)
  have hrange : indexOf? rangeWord (mask (trim h.text)) = none := h.noRange
  rw [splitRange?, hstrip]
  rw [hrange]
  rfl

theorem forLoop_line : forLoop h.line = pure (.line ("for (" ++ h.emitted ++ ") \x7b")) := by
  have hhead : trim (stripEnd "\x7b" (trim (stripStart "for" h.line))) = trim h.text := by
    rw [show stripStart "for" h.line = " " ++ (h.text ++ " \x7b") from stripStart_append "for" _]
    exact headText_spaced h.text
  obtain ⟨n, r, hr⟩ := h.trim_text
  have hcomma : ',' ∈ trim h.text := hr ▸ mem_append_right n.text mem_cons_self
  have hfull : ((trim h.text).isEmpty || (trim h.text).filter (· != ' ') == ";;") = false := by
    rw [Bool.or_eq_false_iff]
    refine ⟨isEmpty_eq_false_iff.mpr (ne_nil_of_mem hcomma), beq_eq_false_iff_ne.mpr fun he => ?_⟩
    have hmem : ',' ∈ (trim h.text).filter (· != ' ') := mem_filter.mpr ⟨hcomma, rfl⟩
    rw [he] at hmem
    exact absurd hmem (by decide)
  have hclauses : clauseLoop (trim h.text) h.line = pure ("for (" ++ h.emitted ++ ") \x7b") := by
    rw [clauseLoop, splitTop_trim rfl rfl, h.splitTop_text]
    dsimp only
    rw [h.init.loopInit_go, emitted]
    simp
  unfold forLoop
  rw [hhead]
  dsimp only
  rw [hfull, h.splitRange?_text, hclauses]
  rfl

end LoopHead

/-! ## 6. Both -/

/-- **Where a head puts a definition of several names.** A branch, with or without `else`, takes
    over its statements. Unless a function literal stands in front of the values, these are one
    clause for each name, with its own value, in front of the condition: as many semicolons as
    names, for all expressions that stand as they are or build something of a type without a
    semicolon. A loop has three clauses; in the first one only the last name has a value, the first
    one. -/
theorem headDefinition_clauses (b : BranchHead) (l : LoopHead) (s : State) :
    (ifStatement b.ifLine = b.lower "if (" ∧ elseIf b.elseLine = b.lower "\x7d else if (") ∧
    (b.init.binding.isLiteral = false → ∀ front,
      (∀ f, b.init.exprs.mapM value = .error f → (b.lower front).run s = .error (.fault f) s) ∧
      ∀ inits, b.init.exprs.mapM value = .ok inits →
        (b.lower front).run s = .ok (.line (front ++ b.emitted inits ++ ") \x7b")) s ∧
        ((∀ v ∈ inits, IsPart ';' v) →
          splitTop ';' (b.emitted inits) = (b.init.declared inits).map Declared.clause ++ [b.cond] ∧
          (splitTop ';' (b.emitted inits)).length = b.init.names.length + 1)) ∧
    ((∀ e ∈ b.init.exprs, Initializer e) → ∃ inits, b.init.exprs.mapM value = .ok inits ∧
      splitTop ';' (b.emitted inits) = (b.init.declared inits).map Declared.clause ++ [b.cond] ∧
      (splitTop ';' (b.emitted inits)).length = b.init.names.length + 1) ∧
    ((forLoop l.line).run s = .ok (.line ("for (" ++ l.emitted ++ ") \x7b")) s ∧
      splitTop ';' l.emitted = [l.init.loopInit, l.cond, l.post] ∧
      ∃ front last first rest, l.init.names = front ++ [last] ∧ l.init.exprs = first :: rest ∧
        declarators l.init.loopInit
          = front.map (fun n => (n.text, none)) ++ (last.text, some first) :: rest.map declarator) := by
  refine ⟨⟨b.ifStatement_ifLine, b.elseIf_elseLine⟩, fun hliteral front => ⟨fun f hf => ?_, fun inits hinits => ?_⟩,
    fun hvalues => ?_, by rw [l.forLoop_line]; rfl, l.splitTop_emitted, l.init.declarators_loopInit⟩
  · rw [b.lower_run hliteral, hf]
  · refine ⟨by rw [b.lower_run hliteral, hinits], fun hparts => ?_⟩
    exact ⟨b.splitTop_emitted hinits hparts, b.length_splitTop_emitted hinits hparts⟩
  · obtain ⟨inits, hinits, hparts⟩ := b.init.exists_inits hvalues
    exact ⟨inits, hinits, b.splitTop_emitted hinits hparts, b.length_splitTop_emitted hinits hparts⟩

/-- `lo, hi := span(1, 2), "a;b"` -/
def bounds : HeadDefinition :=
  ⟨⟨[⟨"lo", rfl⟩, ⟨"hi", rfl⟩], ["span(1, 2)", "\"a;b\""], by decide, rfl, by decide, by decide⟩, by decide,
    by decide⟩

/-- A condition on both names. -/
def boundedBranch : BranchHead := ⟨bounds, "lo < hi", by decide⟩

/-- A loop on the same condition. -/
def boundedLoop : LoopHead :=
  ⟨bounds, "lo < hi", [], by decide, by decide, by decide, by decide, by decide +kernel⟩

theorem headDefinition_clauses_bounds :
    bounds.binding.isLiteral = false ∧ bounds.exprs.mapM value = .ok ["span(1, 2)", "\"a;b\""] ∧
    (∀ v ∈ (["span(1, 2)", "\"a;b\""] : List Text), IsPart ';' v) ∧
    (ifStatement boundedBranch.ifLine).run {}
      = .ok (.line "if (auto lo = span(1, 2);\nauto hi = \"a;b\"; lo < hi) \x7b") {} ∧
    splitTop ';' (boundedBranch.emitted ["span(1, 2)", "\"a;b\""])
      = (["auto lo = span(1, 2)", "auto hi = \"a;b\"", "lo < hi"] : List Text) ∧
    (forLoop boundedLoop.line).run {}
      = .ok (.line "for (auto lo, hi = span(1, 2), \"a;b\"; lo < hi; ) \x7b") {} := by
  have hliteral : bounds.binding.isLiteral = false := rfl
  have hinits : bounds.exprs.mapM value = .ok ["span(1, 2)", "\"a;b\""] := by with_unfolding_all rfl
  have hparts : ∀ v ∈ (["span(1, 2)", "\"a;b\""] : List Text), IsPart ';' v := by decide
  obtain ⟨⟨hif, _⟩, hbranch, _, hloop, _⟩ := headDefinition_clauses boundedBranch boundedLoop {}
  obtain ⟨hrun, hclauses⟩ := (hbranch hliteral "if (").2 _ hinits
  exact ⟨hliteral, hinits, hparts, by rw [hif, hrun]; rfl, (hclauses hparts).1, hloop⟩

/-- Two names in a branch make two clauses before the condition; in a loop, `i` has no value and `j` that
    of `i`. -/
theorem twoNames_misplaced :
    (ifStatement "if a, b := 1, 2; a < b \x7b").run {}
      = .ok (.line "if (auto a = 1;\nauto b = 2; a < b) \x7b") {} ∧
    (forLoop "for i, j := 0, 10; i < j; i++ \x7b").run {}
      = .ok (.line "for (auto i, j = 0, 10; i < j; i++) \x7b") {} ∧
    declarators "auto i, j = 0, 10" = ([("i", none), ("j", some "0"), ("10", none)] : List (Text × Option Text)) := by
  exact ⟨by with_unfolding_all rfl, by with_unfolding_all rfl, by decide +kernel⟩

end Linewise
