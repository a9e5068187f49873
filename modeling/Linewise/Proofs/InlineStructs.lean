/-
  A struct on one line, and the same struct over several lines.

  The text between the braces is cut at every semicolon, also at those inside a tag. What a semicolon
  tears off a tag is read as one more field.
-/
import Mathlib.Algebra.GroupWithZero.Nat
import Linewise.Proofs.BracedParts
import Linewise.Proofs.StructBodies

namespace Linewise

open Text List

variable {s s' s₁ s₂ : State} {ls : List Lowered} {p : Text} {a b ps : List Text} {c : Char} {l : Lowered}
  {d : StructDraft} {stop : Stop}

/-! ## 1. The line -/

/-- A line with a whole struct of the name and the fields. -/
structure InlinesStruct (name : Text) (fields : List StructField) (line : Text) : Prop where
  isName : isIdentifier name = true
  text : ∃ g₁ g₂ g₃, Blank g₁ ∧ (Blank g₂ ∧ g₂ ≠ []) ∧ Blank g₃ ∧
    trim line = structHead g₁ name g₂ ++ (g₃ ++ bracedParts (fields.map (·.text)))

section Line

variable {g₁ name g₂ g₃ : Text} {fields : List StructField} (hid : isIdentifier name = true) (h₁ : Blank g₁)
  (h₂ : Blank g₂) (h₃ : Blank g₃) (hf : ∀ f ∈ fields, f.Valid)

/-- The line of the struct, its literals converted. -/
def inlineCode (g₁ name g₂ g₃ : Text) (fields : List StructField) : Text :=
  structHead g₁ name g₂ ++ (g₃ ++ bracedParts (fields.map (·.code)))

theorem endsWith_inlineCode (hc : c ≠ '\x7d') : endsWith (inlineCode g₁ name g₂ g₃ fields) [c] = false := by
  unfold inlineCode
  rw [← append_assoc]
  exact endsWith_bracedParts hc _ _

include hf in
theorem isPart_codes : ∀ t ∈ fields.map (·.code), IsPart ';' t := fun t ht => by
  obtain ⟨f, hmem, rfl⟩ := mem_map.mp ht
  exact (hf f hmem).isPart_code

include hid h₁ h₂ h₃

include hf

theorem wellNested_inlineCode : WellNested (inlineCode g₁ name g₂ g₃ fields) := by
  unfold inlineCode
  rw [← append_assoc]
  exact (bare_headGap hid h₁ h₂ h₃).wellNested.join (wellNested_bracedParts (isPart_codes hf))
    (joins_of_head (by decide) _ _)

theorem commentIndex?_inlineCode : Lexer.start.commentIndex? (inlineCode g₁ name g₂ g₃ fields) = none := by
  have hhead := bare_headGap hid h₁ h₂ h₃
  unfold inlineCode
  rw [← append_assoc]
  refine Lexer.commentIndex?_eq_none (not_mem_headGap hid h₁ h₂ h₃ rfl rfl)
    (Lexer.commentIndex?_bracedParts hhead.wellNested.literals (fun t ht => (isPart_codes hf t ht).wellNested)
      fun t ht => ?_)
  obtain ⟨f, hmem, rfl⟩ := mem_map.mp ht
  exact (hf f hmem).commentIndex?_code

theorem lineParts?_inline {line : Text}
    (hline : trim line = structHead g₁ name g₂ ++ (g₃ ++ bracedParts (fields.map (·.text)))) :
    lineParts? line = some (inlineCode g₁ name g₂ g₃ fields, none) := by
  have hquotes : ∀ c ∈ structHead g₁ name g₂ ++ g₃, Lexer.isQuote c = false := fun c hc =>
    (bare_headGap hid h₁ h₂ h₃ c hc).2
  have hconvert : Raw.convert (structHead g₁ name g₂ ++ (g₃ ++ bracedParts (fields.map (·.text))))
      = ⟨inlineCode g₁ name g₂ g₃ fields, false⟩ := by
    unfold inlineCode
    rw [← append_assoc, Raw.convert_append hquotes, Raw.convert_bracedParts fun f hmem => (hf f hmem).convert_text,
      append_assoc]
  refine lineParts?_of_code hline rfl rfl hconvert (commentIndex?_inlineCode hid h₁ h₂ h₃ hf) (trim_eq_self_of_solid
    ⟨solidStart_cons rfl _, ?_⟩) (endsWith_inlineCode (by decide))
  unfold inlineCode
  rw [← append_assoc]
  exact solidEnd_of_last (getLast?_bracedParts _ _) rfl

end Line

/-! ## 2. The cuts -/

/-- What semicolons tear off a tag. -/
def FieldTag.torn (t : FieldTag) : List Text :=
  ((pieces (· == ';') t.code).tail.map trim).filter (!·.isEmpty)

theorem StartsTag.piece {b s q : Text} {qs : List Text} (h : StartsTag b s) (hs : pieces (· == ';') s = q :: qs) :
    StartsTag b q := by
  cases h with
  | nil => cases hs; exact .nil
  | @quoted gap hgap hapart rest =>
    obtain ⟨q', qs', _, happend⟩ := pieces_append_of_not_mem (c := ';') (a := gap ++ ['"'])
      (not_mem_append (not_mem_of_blank hgap rfl) (by decide)) rest
    rw [append_assoc, append_assoc] at happend
    cases hs.symm.trans happend
    exact .quoted hgap hapart q'
  | @raw gap hgap rest =>
    obtain ⟨q', qs', _, happend⟩ := pieces_append_of_not_mem (c := ';') (a := gap ++ ['R', '"'])
      (not_mem_append (not_mem_of_blank hgap rfl) (by decide)) rest
    rw [append_assoc, append_assoc] at happend
    cases hs.symm.trans happend
    exact .raw hgap q'

namespace StructField.Valid

variable {f : StructField} (hf : f.Valid)

include hf

theorem stripTag_piece {tail : Text} (h : StartsTag f.body.text tail) : stripTag (trim (f.body.text ++ tail)) = f.body.text := by
  have hhead : trimStart (f.body.text ++ tail) = f.body.text ++ tail := by
    obtain ⟨c, r, hc⟩ := exists_cons_of_ne_nil hf.body.ne_nil
    have hsolid := solid_trim f.body.text
    rw [hf.solid_body] at hsolid
    refine trimStart_eq_self_of_head fun d hd => hsolid.1 d ?_
    rwa [hc] at hd ⊢
  unfold trim
  rw [hhead]
  cases h with
  | nil =>
    rw [append_nil, trimEnd_eq_self_of_last hf.body.solid_end]
    have := hf.stripTag_eq_body .nil
    rwa [append_nil] at this
  | quoted hgap hapart rest =>
    rw [← append_assoc, trimEnd_append_cons rfl, append_assoc]
    exact hf.stripTag_eq_body (.quoted hgap hapart _)
  | @raw gap hgap rest =>
    have hquote := trimEnd_append_cons (c := '"') rfl (f.body.text ++ gap ++ ['R']) rest
    rw [append_assoc, append_assoc, append_assoc, append_assoc] at hquote
    refine (congrArg stripTag hquote).trans ?_
    exact hf.stripTag_eq_body (.raw hgap _)

/-- A piece read as the field, and what is torn off its tag. -/
theorem cuts_code : ∃ first, stripTag first = f.body.text ∧ cuts f.code = first :: f.tag.torn := by
  obtain ⟨q, qs, hq, happend⟩ := pieces_append_of_not_mem (hf.body.unmarked ';' (by decide)) f.tag.code
  have hfirst := hf.stripTag_piece (hf.startsTag.piece hq)
  refine ⟨trim (f.body.text ++ q), hfirst, ?_⟩
  have hne : trim (f.body.text ++ q) ≠ [] := fun h => by
    rw [h] at hfirst
    exact hf.body.ne_nil hfirst.symm
  unfold cuts FieldTag.torn code
  rw [happend, hq, map_cons, filter_cons_of_pos (by simpa using hne)]
  rfl

end StructField.Valid

/-! ## 3. The pieces are read -/

/-- A piece that adds nothing to a class: no text in front of a quote, or an embedded pointer. -/
def isUnread (p : Text) : Bool :=
  (stripTag p).isEmpty || ((splitNamesAndType (stripTag p)).2.isNone && startsWith (stripTag p) "*")

namespace State

/-- The state with further notices. -/
def noticing (s : State) (more : List Notice) : State := { s with notices := s.notices ++ more }

theorem noticing_nil (s : State) : s.noticing [] = s := by
  unfold noticing
  rw [append_nil]

theorem noticing_noticing (s : State) (a b : List Notice) : (s.noticing a).noticing b = s.noticing (a ++ b) := by
  unfold noticing
  rw [append_assoc]

theorem takeFields_noticing (s : State) (more : List Notice) (fields : List StructField) :
    (s.noticing more).takeFields fields = (s.takeFields fields).noticing more := by
  exact foldl_hom (noticing · more) (SparesMaps.takeField ⟨fun _ => rfl, fun _ _ => rfl⟩ fun _ _ _ => rfl)

/-- How much the struct under way shows. -/
def shownCount (s : State) : Nat := (s.struct.map (·.fields.length)).getD 0

theorem shownCount_withFields (hs : s.struct.isSome = true) (fields bases : List Text) :
    (s.withFields fields bases).shownCount = s.shownCount + fields.length := by
  obtain ⟨d, hd⟩ := Option.isSome_iff_exists.mp hs
  unfold shownCount withFields
  rw [hd]
  exact length_append

theorem shownCount_registerMaps (names : List Text) (s : State) :
    (names.foldl registerMap s).shownCount = s.shownCount := by
  rw [shownCount, struct_registerMaps]
  rfl

theorem shownCount_takeField (hs : s.struct.isSome = true) (f : StructField) :
    (s.takeField f).shownCount = s.shownCount + f.shown.length := by
  unfold takeField
  rw [shownCount_withFields (by rwa [struct_registerMaps]), shownCount_registerMaps]

end State

theorem StructField.isSome_takeField (hs : s.struct.isSome = true) (f : StructField) :
    (s.takeField f).struct.isSome = true := by
  show ((f.maps.foldl State.registerMap s).struct.map _).isSome = true
  rw [State.struct_registerMaps, Option.isSome_map, hs]

namespace Lower

theorem structField_unread (hp : isUnread p = true) (hs : s.struct.isSome = true) :
    ∃ more, (structField p).run s = .ok .dropped (s.noticing more) := by
  unfold isUnread at hp
  rw [Bool.or_eq_true, Bool.and_eq_true, List.isEmpty_iff, Option.isNone_iff_eq_none] at hp
  by_cases hne : stripTag p = []
  · exact ⟨[], by rw [structField_blank rfl hne, State.noticing_nil]⟩
  · obtain ⟨hread, hstar⟩ := hp.resolve_left hne
    have hembedded := structField_embedded rfl hne hread hs
    rw [if_pos hstar] at hembedded
    exact ⟨[⟨s.lineNumber, _⟩], hembedded⟩

theorem structField_grows (hs : s.struct.isSome = true) (hrun : (structField p).run s = .ok l s') :
    s'.struct.isSome = true ∧ s.shownCount + (if isUnread p then 0 else 1) ≤ s'.shownCount := by
  cases hp : isUnread p with
  | true =>
    obtain ⟨more, hunread⟩ := structField_unread hp hs
    cases hunread.symm.trans hrun
    exact ⟨hs, Nat.le_refl _⟩
  | false =>
    unfold isUnread at hp
    rw [Bool.or_eq_false_iff, isEmpty_eq_false_iff] at hp
    obtain ⟨hne, hread⟩ := hp
    rw [if_neg Bool.false_ne_true]
    obtain ⟨names, type?, hsplit⟩ : ∃ names type?, splitNamesAndType (stripTag p) = (names, type?) := ⟨_, _, rfl⟩
    cases type? with
    | none =>
      have hstar : startsWith (stripTag p) "*" = false := by
        rwa [hsplit, Option.isNone_none, Bool.true_and] at hread
      have hembedded := structField_embedded rfl hne (congrArg Prod.snd hsplit) hs
      rw [hrun, if_neg (Bool.eq_false_iff.mp hstar)] at hembedded
      cases hembedded
      exact ⟨by rw [State.withFields, Option.isSome_map, hs],
        by rw [State.shownCount_withFields hs]; exact Nat.le_refl _⟩
    | some type =>
      have hnamed := structField_named rfl hne hsplit hs
      rw [hrun] at hnamed
      split at hnamed
      · rename_i hnames
        cases hnamed
        have hcount : 1 ≤ names.length := length_pos_of_ne_nil (areNames_iff.mp hnames).1
        refine ⟨by rw [State.withFields, Option.isSome_map, State.struct_registerMaps, hs], ?_⟩
        rw [State.shownCount_withFields (by rw [State.struct_registerMaps, hs]), State.shownCount_registerMaps]
        exact Nat.add_le_add_left hcount _
      · cases hnamed

/-- How many lines the members take. -/
def memberLines (ls : List Lowered) : Nat := ((ls.filterMap Lowered.render).map fun m => m.count '\n' + 1).sum

theorem memberLines_append (a b : List Lowered) : memberLines (a ++ b) = memberLines a + memberLines b := by
  unfold memberLines
  rw [filterMap_append, map_append, sum_append]

theorem mapM_append_ok {la lb : List Lowered} (ha : (a.mapM structField).run s = .ok la s₁)
    (hb : (b.mapM structField).run s₁ = .ok lb s₂) : ((a ++ b).mapM structField).run s = .ok (la ++ lb) s₂ := by
  rw [mapM_append, bind_ok ha, bind_ok hb]
  rfl

theorem mapM_cons_ok (hp : (structField p).run s = .ok l s₁)
    (hps : (ps.mapM structField).run s₁ = .ok ls s₂) : ((p :: ps).mapM structField).run s = .ok (l :: ls) s₂ := by
  rw [mapM_cons, bind_ok hp, bind_ok hps]
  rfl

theorem mapM_cons_eq_ok (h : ((p :: ps).mapM structField).run s = .ok ls s₂) :
    ∃ l rest s₁, (structField p).run s = .ok l s₁ ∧ (ps.mapM structField).run s₁ = .ok rest s₂ ∧ ls = l :: rest := by
  rw [mapM_cons] at h
  obtain ⟨l, s₁, hp, h⟩ := bind_eq_ok h
  obtain ⟨rest, s', hps, h⟩ := bind_eq_ok h
  cases h
  exact ⟨l, rest, s₁, hp, hps, rfl⟩

theorem mapM_append_eq_ok (h : ((a ++ b).mapM structField).run s = .ok ls s₂) :
    ∃ la lb s₁, (a.mapM structField).run s = .ok la s₁ ∧ (b.mapM structField).run s₁ = .ok lb s₂ ∧ ls = la ++ lb := by
  rw [mapM_append] at h
  obtain ⟨la, s₁, ha, h⟩ := bind_eq_ok h
  obtain ⟨lb, s', hb, h⟩ := bind_eq_ok h
  cases h
  exact ⟨la, lb, s₁, ha, hb, rfl⟩

theorem unread_run (hps : ∀ p ∈ ps, isUnread p = true) (hs : s.struct.isSome = true) :
    ∃ ls more, (ps.mapM structField).run s = .ok ls (s.noticing more) ∧ ls.filterMap Lowered.render = [] := by
  induction ps generalizing s with
  | nil => exact ⟨[], [], by rw [State.noticing_nil]; rfl, rfl⟩
  | cons p ps ih =>
    obtain ⟨hp, hrest⟩ := forall_mem_cons.mp hps
    obtain ⟨more₁, h₁⟩ := structField_unread hp hs
    obtain ⟨ls, more₂, h₂, hls⟩ := ih hrest (s := s.noticing more₁) hs
    refine ⟨.dropped :: ls, more₁ ++ more₂, ?_, by rwa [filterMap_cons_none rfl]⟩
    rw [mapM_cons_ok h₁ h₂, State.noticing_noticing]

theorem pieces_grow (hs : s.struct.isSome = true) (hrun : (ps.mapM structField).run s = .ok ls s') :
    s'.struct.isSome = true ∧ s.shownCount + ps.countP (!isUnread ·) ≤ s'.shownCount := by
  induction ps generalizing s ls with
  | nil =>
    cases hrun
    exact ⟨hs, Nat.le_refl _⟩
  | cons p ps ih =>
    obtain ⟨l, ls', s₁, h₁, h₂, rfl⟩ := mapM_cons_eq_ok hrun
    obtain ⟨hs₁, hcount₁⟩ := structField_grows hs h₁
    obtain ⟨hs₂, hcount₂⟩ := ih hs₁ h₂
    refine ⟨hs₂, ?_⟩
    rw [countP_cons]
    cases hp : isUnread p <;> simp [hp] at hcount₁ ⊢ <;> omega

end Lower

/-! ## 4. The fields are read -/

theorem count_unlines {ls : List Text} (hne : ls ≠ []) :
    (unlines ls).count '\n' + 1 = (ls.map fun l => l.count '\n' + 1).sum := by
  obtain ⟨l, ls, rfl⟩ := exists_cons_of_ne_nil hne
  induction ls generalizing l with
  | nil => rw [unlines_singleton, map_singleton, sum_singleton]
  | cons m ls ih =>
    rw [unlines_cons_cons, map_cons, sum_cons, ← ih m (cons_ne_nil m ls), count_append,
      count_cons_self]
    omega

theorem StructField.Valid.memberLines_lowered {f : StructField} (hf : f.Valid) :
    Lower.memberLines [f.lowered] = f.members.length := by
  have hone : ∀ m ∈ f.members, m.count '\n' + 1 = 1 := fun m hm => by
    rw [count_eq_zero_of_not_mem (hf.body.oneLine.isLine_member m hm).1]
  obtain ⟨body, tag⟩ := f
  cases body with
  | embedded name => rfl
  | named earlier last gap type =>
    show ([unlines _].map fun m => m.count '\n' + 1).sum = _
    rw [map_singleton, sum_singleton, count_unlines (by simp [members, names]), map_congr_left hone]
    simp

section Fields

variable {fields : List StructField} (hf : ∀ f ∈ fields, f.Valid) {s : State} (hs : s.struct.isSome = true)

include hf hs

theorem fields_run (htorn : ∀ f ∈ fields, ∀ p ∈ f.tag.torn, isUnread p = true) :
    ∃ ls more, ((fields.flatMap (cuts ·.code)).mapM Lower.structField).run s
        = .ok ls ((s.takeFields fields).noticing more) ∧
      ls.filterMap Lowered.render = fields.flatMap (·.lowered.render.toList) := by
  induction fields generalizing s with
  | nil => exact ⟨[], [], by rw [State.noticing_nil]; rfl, rfl⟩
  | cons f fields ih =>
    obtain ⟨hvalid, hrest⟩ := forall_mem_cons.mp hf
    obtain ⟨htear, htears⟩ := forall_mem_cons.mp htorn
    obtain ⟨first, hfirst, hpieces⟩ := hvalid.cuts_code
    have hs₁ := f.isSome_takeField hs
    have hrun₁ := hvalid.structField_run hfirst hs
    obtain ⟨ls₂, more₂, hrun₂, hls₂⟩ := Lower.unread_run htear hs₁
    obtain ⟨ls₃, more₃, hrun₃, hls₃⟩ := ih hrest (s := (s.takeField f).noticing more₂) hs₁ htears
    refine ⟨f.lowered :: ls₂ ++ ls₃, more₂ ++ more₃, ?_, ?_⟩
    · rw [flatMap_cons, hpieces]
      refine (Lower.mapM_append_ok (Lower.mapM_cons_ok hrun₁ hrun₂) hrun₃).trans ?_
      rw [State.takeFields_noticing, State.noticing_noticing]
      rfl
    · rw [filterMap_append, hls₃, flatMap_cons, filterMap_cons, hls₂]
      cases f.lowered.render <;> rfl

/-- What is torn off a tag and read makes the class longer. -/
theorem fields_grow (hrun : ((fields.flatMap (cuts ·.code)).mapM Lower.structField).run s = .ok ls s') :
    s'.struct.isSome = true ∧
      s.shownCount + (fields.flatMap (·.shown)).length + (fields.flatMap (·.tag.torn)).countP (!isUnread ·)
        ≤ s'.shownCount ∧
      (fields.flatMap (·.members)).length ≤ Lower.memberLines ls := by
  induction fields generalizing s ls with
  | nil =>
    cases hrun
    exact ⟨hs, Nat.le_refl _, Nat.le_refl _⟩
  | cons f fields ih =>
    obtain ⟨hvalid, hrest⟩ := forall_mem_cons.mp hf
    obtain ⟨first, hfirst, hpieces⟩ := hvalid.cuts_code
    rw [flatMap_cons, hpieces] at hrun
    obtain ⟨la, lb, s₂, hfield, hrun₃, rfl⟩ := Lower.mapM_append_eq_ok hrun
    obtain ⟨l, lt, s₁, hrun₁, hrun₂, rfl⟩ := Lower.mapM_cons_eq_ok hfield
    -- the first piece is the field itself
    cases (hvalid.structField_run hfirst hs).symm.trans hrun₁
    obtain ⟨hs₂, hcount₂⟩ := Lower.pieces_grow (f.isSome_takeField hs) hrun₂
    obtain ⟨hs₃, hcount₃, hlines⟩ := ih hrest hs₂ hrun₃
    rw [State.shownCount_takeField hs] at hcount₂
    refine ⟨hs₃, ?_, ?_⟩
    · rw [flatMap_cons, flatMap_cons, length_append, countP_append]
      omega
    · rw [flatMap_cons, length_append, Lower.memberLines_append, ← singleton_append,
        Lower.memberLines_append, hvalid.memberLines_lowered]
      omega

end Fields

/-! ## 5. The line is lowered -/

/-- The class of a struct on one line, as text. -/
def inlineClass (name : Text) (d : StructDraft) (ls : List Lowered) : Text :=
  unlines ([classOpener name d.bases] ++ (ls.filterMap Lowered.render).map (fun m => ("    " : Text) ++ m)
    ++ [strMethod d.fields ++ "\n\x7d;"])

namespace Lower

variable {name line : Text} {parts : List Text} {s s' : State}

theorem structDeclaration_bracedParts :
    structDeclaration name (bracedParts parts) line = (do
      modify (·.enterStruct name)
      let members ← inlineFields (" " ++ (joinWith "; " parts ++ " "))
      let bases := ((← get).struct.map (·.bases)).getD []
      return .line (unlines ([classOpener name bases] ++ members ++ [← structClose]))) := by
  have hopen : (bracedParts parts == "\x7b") = false := rfl
  have hinner : (stripStart? "\x7b" (bracedParts parts)).bind (stripEnd? "\x7d")
      = some (" " ++ (joinWith "; " parts ++ " ")) := by
    have hend := stripEnd?_append "\x7d" (" " ++ (joinWith "; " parts ++ " "))
    rw [append_assoc, append_assoc] at hend
    exact hend
  unfold structDeclaration
  rw [hopen, hinner]
  rfl

theorem inlineFields_eq :
    inlineFields (" " ++ (joinWith "; " parts ++ " "))
      = (parts.flatMap cuts).mapM structField >>= fun ls =>
          pure ((ls.filterMap Lowered.render).map fun m => ("    " : Text) ++ m) := by
  rw [← cuts_joinWith]
  rfl

theorem structDeclaration_inline_ok
    (hrun : ((parts.flatMap cuts).mapM structField).run (s.enterStruct name) = .ok ls s')
    (hd : s'.struct = some d) :
    (structDeclaration name (bracedParts parts) line).run s
      = .ok (.line (inlineClass name d ls)) { s' with struct := none } := by
  have hfields := bind_ok (f := fun ls => pure ((ls.filterMap Lowered.render).map fun m => ("    " : Text) ++ m)) hrun
  rw [← inlineFields_eq] at hfields
  rw [structDeclaration_bracedParts, EStateM.run_bind, EStateM.run_modify]
  refine (bind_ok hfields).trans ?_
  cases s'
  subst hd
  rfl

theorem structDeclaration_inline_error
    (hrun : ((parts.flatMap cuts).mapM structField).run (s.enterStruct name) = .error stop s') :
    (structDeclaration name (bracedParts parts) line).run s = .error stop s' := by
  have hfields := bind_error
    (f := fun ls => pure ((ls.filterMap Lowered.render).map fun m => ("    " : Text) ++ m)) hrun
  rw [← inlineFields_eq] at hfields
  rw [structDeclaration_bracedParts, EStateM.run_bind, EStateM.run_modify]
  exact bind_error hfields

end Lower

section Inline

variable {r : Run} (hr : r.Between) {name line : Text} {fields : List StructField} (number : Nat)
  (hline : InlinesStruct name fields line) (hf : ∀ f ∈ fields, f.Valid)

include hr hline hf

theorem Run.sourceLine_inline :
    ∃ code, r.sourceLine number line
      = r.goOn (layout (indentation line) false ·.render none)
        ((Lower.structDeclaration name (bracedParts (fields.map (·.code))) code).run
          (r.state.place number r.state.depth)) := by
  obtain ⟨hid, g₁, g₂, g₃, h₁, ⟨h₂, hne⟩, h₃, htext⟩ := hline
  have hparts := lineParts?_inline hid h₁ h₂ h₃ hf htext
  have hnested := wellNested_inlineCode hid h₁ h₂ h₃ hf
  have hlower : Lower.typeDeclaration (inlineCode g₁ name g₂ g₃ fields)
      = Lower.structDeclaration name (bracedParts (fields.map (·.code))) (inlineCode g₁ name g₂ g₃ fields) := by
    have hlast {a : Text} {c : Char} (hc : (a ++ bracedParts (fields.map (·.code))).getLast? = some c) :
        isBlank c = false := by
      rw [getLast?_bracedParts] at hc
      exact Option.some.inj hc ▸ rfl
    have htrim : trim (g₃ ++ bracedParts (fields.map (·.code))) = bracedParts (fields.map (·.code)) := by
      rw [trim_blank_append h₃]
      exact trim_eq_self_of_solid ⟨fun c hc => Option.some.inj hc ▸ rfl, fun c hc => hlast (a := []) hc⟩
    unfold inlineCode
    rw [Lower.typeDeclaration_struct hid h₁ h₂ hne fun c hc => hlast hc, htrim]
  have hkind : StatementKind.ofCode (inlineCode g₁ name g₂ g₃ fields) = .typeDeclaration :=
    ofCode_structHead (endsWith_inlineCode (by decide))
  have hcode : inlineCode g₁ name g₂ g₃ fields ≠ [] := cons_ne_nil _ _
  have hcomment : startsWith (inlineCode g₁ name g₂ g₃ fields) "//" = false := rfl
  have hbrace : startsWith (inlineCode g₁ name g₂ g₃ fields) "\x7d" = false := rfl
  -- from here on only these facts about the code count
  generalize inlineCode g₁ name g₂ g₃ fields = code at hparts hnested hlower hkind hcode hcomment hbrace
  have hclass : (r.stateAt number code).classify code = .typeDeclaration :=
    (State.classify_code hcode hcomment (State.block?_eq_none (s := r.stateAt number code) hr.blocks)
      (closesClosure_eq_false hbrace)).trans hkind
  have hstate : r.stateAt number code = r.state.place number r.state.depth := by
    unfold Run.stateAt State.countBraces
    rw [show ({ r.state with lineNumber := number } : State).depth = r.state.depth from rfl, hnested.braceDepth_eq]
    rfl
  have hsource := Run.sourceLine_code number hparts hcode hr.pending hr.block?_ne hclass rfl
  rw [show Lower.line .typeDeclaration code = Lower.typeDeclaration code from rfl, hlower, hstate] at hsource
  exact ⟨code, hsource⟩

theorem Run.sourceLine_inline_ok (hrun : ((fields.flatMap (cuts ·.code)).mapM Lower.structField).run
      ((r.state.place number r.state.depth).enterStruct name) = .ok ls s') (hd : s'.struct = some d) :
    r.sourceLine number line = .ok { r with
      state := { s' with struct := none }
      output := r.output ++ (lines (inlineClass name d ls)).map (indentation line ++ ·) } := by
  obtain ⟨code, hsource⟩ := Run.sourceLine_inline hr number hline hf
  rw [← flatMap_map] at hrun
  rw [Lower.structDeclaration_inline_ok hrun hd] at hsource
  exact hsource

theorem Run.sourceLine_inline_error (hrun : ((fields.flatMap (cuts ·.code)).mapM Lower.structField).run
      ((r.state.place number r.state.depth).enterStruct name) = .error stop s') :
    r.sourceLine number line = .error ⟨s'.lineNumber, stop⟩ := by
  obtain ⟨code, hsource⟩ := Run.sourceLine_inline hr number hline hf
  rw [← flatMap_map] at hrun
  rw [Lower.structDeclaration_inline_error hrun] at hsource
  exact hsource

end Inline

/-! ## 6. The lines of the class -/

theorem length_pieces (s : Text) : (pieces (· == '\n') s).length = s.count '\n' + 1 := by
  induction s with
  | nil => rfl
  | cons c s ih =>
    obtain ⟨q, qs, hq⟩ := exists_pieces (· == '\n') s
    rw [hq] at ih
    rw [pieces, count_cons, hq]
    split
    · rw [length_cons, ih]
    · exact ih

theorem length_lines (hc : c ≠ '\n') (s : Text) : (lines (s ++ [c])).length = (s ++ [c]).count '\n' + 1 := by
  obtain ⟨ps, q, hpieces⟩ := pieces_concat (p := (· == '\n')) (by simpa using hc) s
  rw [← length_pieces, lines, hpieces, linesOfPieces_front ps (cons_ne_nil _ _), linesOfPieces, if_neg (by simp),
    length_append, length_append, length_map]

theorem length_le_sum_lines (ls : List Text) : ls.length ≤ (ls.map fun l => l.count '\n' + 1).sum := by
  induction ls with
  | nil => exact Nat.le_refl _
  | cons l ls ih =>
    rw [length_cons, map_cons, sum_cons]
    omega

theorem classEnd_ne_nil (shown : List Text) : classEnd shown ≠ [] := cons_ne_nil _ _

theorem le_length_inlineClass (name : Text) (d : StructDraft) (ls : List Lowered) :
    1 + Lower.memberLines ls + (classEnd d.fields).length ≤ (lines (inlineClass name d ls)).length := by
  have hlines : (lines (inlineClass name d ls)).length = (inlineClass name d ls).count '\n' + 1 := by
    unfold inlineClass
    rw [unlines_append (by simp) (by simp), unlines_singleton]
    have := length_lines (c := ';') (by decide) (unlines ([classOpener name d.bases] ++
      (ls.filterMap Lowered.render).map (fun m => ("    " : Text) ++ m)) ++ '\n' :: (strMethod d.fields ++ "\n\x7d"))
    simpa using this
  have hmembers : ((ls.filterMap Lowered.render).map fun m => (("    " : Text) ++ m).count '\n' + 1).sum
      = Lower.memberLines ls := by
    refine congrArg sum (map_congr_left fun m _ => ?_)
    rw [count_append, count_eq_zero_of_not_mem (show '\n' ∉ ("    " : Text) by decide), Nat.zero_add]
  have hend : (classEnd d.fields).length ≤ (strMethod d.fields ++ "\n\x7d;").count '\n' + 1 := by
    rw [strMethod_append, count_unlines (classEnd_ne_nil _)]
    exact length_le_sum_lines _
  rw [hlines]
  unfold inlineClass
  rw [count_unlines (by simp), map_append, map_append, sum_append, sum_append, map_map,
    map_singleton, sum_singleton, map_singleton, sum_singleton]
  change _ ≤ _ + ((ls.filterMap Lowered.render).map fun m => (("    " : Text) ++ m).count '\n' + 1).sum + _
  rw [hmembers]
  omega

theorem unlines_map_unlines {lss : List (List Text)} (h : ∀ ls ∈ lss, ls ≠ []) :
    unlines (lss.map unlines) = unlines lss.flatten := by
  induction lss with
  | nil => rfl
  | cons ls lss ih =>
    obtain ⟨hls, hrest⟩ := forall_mem_cons.mp h
    cases lss with
    | nil => rw [map_singleton, unlines_singleton, flatten_singleton]
    | cons ms lss =>
      have hne : (ms :: lss).flatten ≠ [] :=
        append_ne_nil_of_left_ne_nil (hrest ms mem_cons_self) _
      show unlines (unlines ls :: unlines ms :: lss.map unlines) = unlines (ls ++ (ms :: lss).flatten)
      rw [unlines_cons_cons, ← map_cons, ih hrest, unlines_append hls hne]

/-- The lines of the members, the first of them one step in. -/
def StructField.block (f : StructField) : List (List Text) :=
  match f.members with
  | [] => []
  | m :: ms => [(("    " : Text) ++ m) :: ms]

theorem StructField.block_ne_nil (f : StructField) : ∀ ls ∈ f.block, ls ≠ [] := by
  unfold StructField.block
  split
  · exact nofun
  · exact fun ls h => by rw [mem_singleton.mp h]; exact cons_ne_nil _ _

theorem StructField.map_unlines_block (f : StructField) :
    f.lowered.render.toList.map (fun m => ("    " : Text) ++ m) = f.block.map unlines := by
  obtain ⟨body, tag⟩ := f
  cases body with
  | embedded name => rfl
  | named earlier last gap type =>
    obtain ⟨m, ms, hms⟩ := exists_cons_of_ne_nil
      (l := StructField.members ⟨.named earlier last gap type, tag⟩) (by simp [members, names])
    have hindent : unlines (("    " ++ m) :: ms) = "    " ++ unlines (m :: ms) := by
      show joinWith _ ((' ' :: ' ' :: ' ' :: ' ' :: m) :: ms) = _
      rw [joinWith_head, joinWith_head, joinWith_head, joinWith_head]
      rfl
    unfold block
    rw [hms]
    show ["    " ++ unlines (StructField.members ⟨.named earlier last gap type, tag⟩)] = [unlines _]
    rw [hms, hindent]

theorem StructField.map_trimStart_block (f : StructField) :
    f.block.flatten.map trimStart = f.members.map trimStart := by
  have hblank : Blank "    " := by decide
  unfold block
  split
  · rename_i h
    rw [h]
    rfl
  · rename_i m ms h
    rw [h, flatten_singleton, map_cons, map_cons, trimStart_append_of_blank hblank]

theorem StructField.Valid.isLine_block {f : StructField} (hf : f.Valid) : ∀ ls ∈ f.block, ∀ l ∈ ls, IsLine l := by
  have hmembers := hf.body.oneLine.isLine_member
  unfold block
  split
  · exact nofun
  · rename_i m ms h
    rw [h] at hmembers
    rw [forall_mem_singleton, forall_mem_cons]
    exact ⟨isLine_append (by decide) (hmembers m mem_cons_self),
      (forall_mem_cons.mp hmembers).2⟩

theorem FieldBody.OneLine.newline_not_mem_base {f : StructField} (hf : f.body.OneLine) : ∀ b ∈ f.bases, '\n' ∉ b := by
  obtain ⟨body, tag⟩ := f
  cases body with
  | embedded type => exact forall_mem_singleton.mpr hf
  | named earlier last gap type => exact fun b hb => absurd hb not_mem_nil

theorem lines_inlineClass {name : Text} {fields : List StructField} (hid : isIdentifier name = true)
    (hf : ∀ f ∈ fields, f.Valid) (hls : ls.filterMap Lowered.render = fields.flatMap (·.lowered.render.toList))
    (opener : Option Nat) :
    lines (inlineClass name ⟨name, fields.flatMap (·.shown), fields.flatMap (·.bases), opener⟩ ls)
      = classHead name (fields.flatMap (·.bases)) ::
        ((fields.flatMap (·.block)).flatten ++ classEnd (fields.flatMap (·.shown))) := by
  have htext : inlineClass name ⟨name, fields.flatMap (·.shown), fields.flatMap (·.bases), opener⟩ ls
      = unlines (([classHead name (fields.flatMap (·.bases))] ::
          (fields.flatMap (·.block) ++ [classEnd (fields.flatMap (·.shown))])).map unlines) := by
    have hmembers : (fields.flatMap (·.lowered.render.toList)).map (fun m => ("    " : Text) ++ m)
        = (fields.flatMap (·.block)).map unlines := by
      rw [map_flatMap, map_flatMap]
      exact congrArg (fields.flatMap ·) (funext StructField.map_unlines_block)
    unfold inlineClass
    rw [hls, hmembers, strMethod_append, classOpener_eq, map_cons, map_append, map_singleton,
      unlines_singleton, append_assoc]
    rfl
  have hne : ∀ ls ∈ [classHead name (fields.flatMap (·.bases))] ::
      (fields.flatMap (·.block) ++ [classEnd (fields.flatMap (·.shown))]), ls ≠ [] := by
    rw [forall_mem_cons, forall_mem_append, forall_mem_singleton]
    refine ⟨cons_ne_nil _ _, fun ls hmem => ?_, classEnd_ne_nil _⟩
    obtain ⟨f, _, hblock⟩ := mem_flatMap.mp hmem
    exact f.block_ne_nil ls hblock
  have hlines : ∀ l ∈ classHead name (fields.flatMap (·.bases)) ::
      ((fields.flatMap (·.block)).flatten ++ classEnd (fields.flatMap (·.shown))), IsLine l := by
    rw [forall_mem_cons, forall_mem_append]
    refine ⟨isLine_classHead (not_mem_of_isIdentifier hid rfl) fun b hb => ?_, fun l hl => ?_,
      isLine_classEnd fun e he => ?_⟩
    · obtain ⟨f, hmem, hb⟩ := mem_flatMap.mp hb
      exact (hf f hmem).body.oneLine.newline_not_mem_base b hb
    · obtain ⟨ls, hblock, hl⟩ := mem_flatten.mp hl
      obtain ⟨f, hmem, hblock⟩ := mem_flatMap.mp hblock
      exact (hf f hmem).isLine_block ls hblock l hl
    · obtain ⟨f, hmem, he⟩ := mem_flatMap.mp he
      exact (hf f hmem).body.oneLine.newline_not_mem_shown e he
  rw [htext, unlines_map_unlines hne, flatten_cons, flatten_append, flatten_singleton]
  exact lines_unlines (cons_ne_nil _ _) hlines

/-! ## 7. The two forms -/

/-- Two runs have written the same lines, up to margins, and know the same. -/
structure Run.Matches (a b : Run) : Prop where
  output : a.output.map trimStart = b.output.map trimStart
  knownMaps : a.state.knownMaps = b.state.knownMaps
  flags : a.flags = b.flags

theorem FieldTag.torn_eq_nil {t : FieldTag} (h : ';' ∉ t.text) : t.torn = [] := by
  have hcode : ';' ∉ t.code := by
    cases t with
    | none => exact h
    | quoted gap content => exact h
    | raw gap content =>
      intro hmem
      unfold code Raw.literal at hmem
      simp only [mem_append] at hmem
      obtain hmem | hmem | hmem | hmem := hmem
      · exact h (mem_append_left _ hmem)
      · exact absurd hmem (by decide)
      · exact h (mem_append_right _ (mem_cons_of_mem _ (mem_append_left _ hmem)))
      · exact absurd hmem (by decide)
  unfold torn
  rw [pieces_of_not_mem hcode]
  rfl

/-- The same fields, each on its line. -/
def fieldLines (rows : List (Text × StructField)) : List BodyLine := rows.map fun p => ⟨p.1, some p.2⟩

theorem fieldsOf_fieldLines (rows : List (Text × StructField)) : fieldsOf (fieldLines rows) = rows.map Prod.snd := by
  unfold fieldsOf fieldLines
  induction rows with
  | nil => rfl
  | cons p rows ih => rw [map_cons, flatMap_cons, ih]; rfl

theorem map_line_fieldLines (rows : List (Text × StructField)) :
    (fieldLines rows).map (·.line) = rows.map Prod.fst := by
  unfold fieldLines
  rw [map_map]
  rfl

theorem map_trimStart_indented {indent : Text} (h : Blank indent) (ls : List Text) :
    (ls.map (indent ++ ·)).map trimStart = ls.map trimStart := by
  rw [map_map]
  exact map_congr_left fun l _ => trimStart_append_of_blank h

theorem map_trimStart_fieldLines (rows : List (Text × StructField)) :
    ((fieldLines rows).flatMap (·.output)).map trimStart
      = ((rows.map Prod.snd).flatMap (·.members)).map trimStart := by
  induction rows with
  | nil => rfl
  | cons p rows ih =>
    show (p.2.members.map (indentation p.1 ++ ·) ++ (fieldLines rows).flatMap (·.output)).map trimStart
      = (p.2.members ++ (rows.map Prod.snd).flatMap (·.members)).map trimStart
    rw [map_append, map_append, ih, map_trimStart_indented (blank_indentation p.1)]

theorem map_trimStart_blocks (fields : List StructField) :
    (fields.flatMap (·.block)).flatten.map trimStart = (fields.flatMap (·.members)).map trimStart := by
  induction fields with
  | nil => rfl
  | cons f fields ih =>
    rw [flatMap_cons, flatMap_cons, flatten_append, map_append, map_append, ih,
      f.map_trimStart_block]

section Inline

variable {r : Run} (hr : r.Between) {name line : Text} {fields : List StructField} (number : Nat)
  (hline : InlinesStruct name fields line) (hf : ∀ f ∈ fields, f.Valid)

include hr hline hf

theorem Run.sourceLine_inlineStruct (htorn : ∀ f ∈ fields, ∀ p ∈ f.tag.torn, isUnread p = true) :
    ∃ more, r.sourceLine number line = .ok { r with
      state := ((r.state.pastStruct fields).place number r.state.depth).noticing more
      output := r.output ++ (classHead name (fields.flatMap (·.bases)) ::
        ((fields.flatMap (·.block)).flatten ++ classEnd (fields.flatMap (·.shown)))).map (indentation line ++ ·) } := by
  obtain ⟨ls, more, hrun, hls⟩ := fields_run hf (s := (r.state.place number r.state.depth).enterStruct name) rfl htorn
  have hknown : ((r.state.place number r.state.depth).enterStruct name).knownWith fields = r.state.knownWith fields :=
    State.knownWith_congr (s := (r.state.place number r.state.depth).enterStruct name) (u := r.state) rfl fields
  rw [State.takeFields_shape, hknown] at hrun
  have hsource := Run.sourceLine_inline_ok hr number hline hf hrun
    (d := ⟨name, fields.flatMap (·.shown), fields.flatMap (·.bases), none⟩) rfl
  rw [lines_inlineClass hline.isName hf hls] at hsource
  exact ⟨more, hsource⟩

theorem Run.length_output_inlineStruct {b : Run} (hb : r.sourceLine number line = .ok b) :
    r.output.length + (1 + (fields.flatMap (·.members)).length
        + (7 + (2 * ((fields.flatMap (·.shown)).length + (fields.flatMap (·.tag.torn)).countP (!isUnread ·)) - 1)))
      ≤ b.output.length := by
  cases hrun : ((fields.flatMap (cuts ·.code)).mapM Lower.structField).run
      ((r.state.place number r.state.depth).enterStruct name) with
  | error stop s' =>
    rw [Run.sourceLine_inline_error hr number hline hf hrun] at hb
    cases hb
  | ok ls s' =>
    obtain ⟨hsome, hcount, hmembers⟩ := fields_grow hf rfl hrun
    obtain ⟨d, hd⟩ := Option.isSome_iff_exists.mp hsome
    have hshown : s'.shownCount = d.fields.length := by
      unfold State.shownCount
      rw [hd]
      rfl
    have hnone : ((r.state.place number r.state.depth).enterStruct name).shownCount = 0 := rfl
    have hlines := le_length_inlineClass name d ls
    rw [length_classEnd] at hlines
    rw [Run.sourceLine_inline_ok hr number hline hf hrun hd] at hb
    cases hb
    rw [hshown, hnone] at hcount
    rw [length_append, length_map]
    omega

end Inline

/-- **The forms of a struct match just when nothing torn off a tag is read.** -/
theorem inlineStruct_matches_iff {r : Run} (hr : r.Between) {name opening closing inline : Text}
    {rows : List (Text × StructField)} (number number' : Nat) (hopening : OpensStruct name opening)
    (hrows : ∀ p ∈ rows, trim p.1 = p.2.text ∧ p.2.Valid) (hclosing : trim closing = "\x7d")
    (hinline : InlinesStruct name (rows.map Prod.snd) inline) :
    (∀ t : FieldTag, ';' ∉ t.text → t.torn = []) ∧
    ∃ a, r.sourceLines number (opening :: (rows.map Prod.fst ++ [closing])) = .ok a ∧
      ((∃ b, r.sourceLine number' inline = .ok b ∧ a.Matches b) ↔
        ∀ p ∈ rows, ∀ piece ∈ p.2.tag.torn, isUnread piece = true) := by
  refine ⟨fun t => t.torn_eq_nil, ?_⟩
  have hbody : ∀ b ∈ fieldLines rows, b.Reads := fun b hb => by
    obtain ⟨p, hp, rfl⟩ := mem_map.mp hb
    exact ⟨(hrows p hp).1, (hrows p hp).2.toWritten⟩
  have hf : ∀ f ∈ rows.map Prod.snd, f.Valid := fun f hmem => by
    obtain ⟨p, hp, rfl⟩ := mem_map.mp hmem
    exact (hrows p hp).2
  have hlines := hr.struct_run_apart hbody number hopening
    (by rw [fieldsOf_fieldLines]; exact fun f hmem => (hf f hmem).apart) hclosing
  rw [map_line_fieldLines, fieldsOf_fieldLines] at hlines
  refine ⟨_, hlines, ?_, fun htorn => ?_⟩
  · rintro ⟨b, hb, hmatch⟩
    have hlength := congrArg length hmatch.output
    have hlonger := Run.length_output_inlineStruct hr number' hinline hf hb
    have hmembers := congrArg length (map_trimStart_fieldLines rows)
    rw [length_map, length_map] at hlength hmembers
    rw [length_append, classLines, length_cons, length_append, length_map, length_classEnd]
      at hlength
    have hzero : ((rows.map Prod.snd).flatMap (·.tag.torn)).countP (!isUnread ·) = 0 := by omega
    intro p hp piece hpiece
    have := countP_eq_zero.mp hzero piece
      (mem_flatMap.mpr ⟨p.2, mem_map.mpr ⟨p, hp, rfl⟩, hpiece⟩)
    simpa using this
  · obtain ⟨more, hsource⟩ := Run.sourceLine_inlineStruct hr number' hinline hf fun f hmem => by
      obtain ⟨p, hp, rfl⟩ := mem_map.mp hmem
      exact htorn p hp
    refine ⟨_, hsource, ?_, rfl, rfl⟩
    rw [classLines, map_append, map_append, map_trimStart_indented (blank_indentation inline), map_cons,
      map_cons, map_append, map_append, map_trimStart_fieldLines, map_trimStart_blocks,
      map_trimStart_indented (blank_indentation closing), trimStart_append_of_blank (blank_indentation opening)]

/-- Fields with an embedded type, a group of names, a map, and a semicolon in a tag. -/
def taggedRows : List (Text × StructField) :=
  [("\tA", ⟨.embedded "A", .none⟩),
    ("\tx, y int \x60k:\"x;\"\x60", ⟨.named ["x"] " y" " " "int", .raw " " "k:\"x;\""⟩),
    ("\tm map[string]int", ⟨.named [] "m" " " "map[string]int", .none⟩)]

theorem taggedRows_valid : ∀ p ∈ taggedRows, trim p.1 = p.2.text ∧ p.2.Valid := by
  have hint : IsFieldType "int" := TypeExpr.isFieldType (.name ⟨⟨"int", rfl⟩, []⟩)
  have hmap : IsFieldType "map[string]int" :=
    TypeExpr.isFieldType (.map (.name ⟨⟨"string", rfl⟩, []⟩) (.name ⟨⟨"int", rfl⟩, []⟩))
  unfold taggedRows
  rw [forall_mem_cons, forall_mem_cons, forall_mem_singleton]
  exact ⟨⟨rfl, ⟨⟨⟨⟨"A", rfl⟩, []⟩, rfl⟩, trivial, rfl⟩, by decide⟩,
    ⟨rfl, ⟨⟨by decide, by decide, hint⟩, ⟨by decide, by decide, rfl⟩, rfl⟩, by decide⟩,
    ⟨rfl, ⟨⟨by decide, by decide, hmap⟩, trivial, rfl⟩, by decide⟩⟩

theorem inlineStruct_matches_iff_taggedRows :
    OpensStruct "T" "type T struct \x7b" ∧
    InlinesStruct "T" (taggedRows.map Prod.snd)
      "type T struct \x7b A; x, y int \x60k:\"x;\"\x60; m map[string]int \x7d" ∧
    ∃ a b, Run.sourceLines {} 1 (["type T struct \x7b", "\tA", "\tx, y int \x60k:\"x;\"\x60", "\tm map[string]int",
        "\x7d"] : List Text) = .ok a ∧
      Run.sourceLine {} 1 "type T struct \x7b A; x, y int \x60k:\"x;\"\x60; m map[string]int \x7d" = .ok b ∧
      a.Matches b := by
  have hopening : OpensStruct "T" "type T struct \x7b" :=
    ⟨rfl, [], " ", " ", by decide, by decide, by decide, rfl⟩
  have hinline : InlinesStruct "T" (taggedRows.map Prod.snd)
      "type T struct \x7b A; x, y int \x60k:\"x;\"\x60; m map[string]int \x7d" :=
    ⟨rfl, [], " ", " ", by decide, by decide, by decide, rfl⟩
  obtain ⟨_, a, ha, hiff⟩ := inlineStruct_matches_iff (r := {}) ⟨rfl, rfl⟩ 1 1 hopening taggedRows_valid
    (by decide : trim "\x7d" = "\x7d") hinline
  obtain ⟨b, hb, hmatch⟩ := hiff.mpr (by decide)
  exact ⟨hopening, hinline, a, b, ha, hb, hmatch⟩

/-- A field with a semicolon in its tag. -/
def tornField : StructField := ⟨.named [] "X" " " "int", .raw " " "a;b"⟩

/-- Its class, from several lines. -/
def wholeClass : List Text :=
  ["class T \x7b public:", "int X\x7b\x7d;", "    std::string _str() const \x7b", "        std::stringstream ss;",
    "        ss << \"\x7b\";", "        _format_output(ss, X);", "        ss << \"\x7d\";", "        return ss.str();",
    "    \x7d", "\x7d;"]

/-- Its class, from one line. -/
def tornClass : List Text :=
  ["class T : public b) \x7b public:", "    int X\x7b\x7d;", "    std::string _str() const \x7b",
    "        std::stringstream ss;", "        ss << \"\x7b\";", "        _format_output(ss, X);",
    "        ss << \" \";", "        _format_output(ss, static_cast<const b)&>(*this));", "        ss << \"\x7d\";",
    "        return ss.str();", "    \x7d", "\x7d;"]

theorem tornField_valid : tornField.Valid :=
  ⟨⟨⟨by decide, by decide, TypeExpr.isFieldType (.name ⟨⟨"int", rfl⟩, []⟩)⟩, ⟨by decide, by decide, rfl⟩,
    rfl⟩, by decide⟩

/-- **A tag torn apart**: the rest of it becomes a base of the class, and is written. -/
theorem tornTag_mismatch :
    ∃ a b, Run.sourceLines {} 1 (["type T struct \x7b", "X int \x60a;b\x60", "\x7d"] : List Text) = .ok a ∧
      Run.sourceLine {} 1 "type T struct \x7b X int \x60a;b\x60 \x7d" = .ok b ∧
      a.output = wholeClass ∧ b.output = tornClass ∧ ¬ a.Matches b := by
  have hopening : OpensStruct "T" "type T struct \x7b" :=
    ⟨rfl, [], " ", " ", by decide, by decide, by decide, rfl⟩
  have hinline : InlinesStruct "T" [tornField] "type T struct \x7b X int \x60a;b\x60 \x7d" :=
    ⟨rfl, [], " ", " ", by decide, by decide, by decide, rfl⟩
  have hfields : ∀ f ∈ [tornField], f.Valid := forall_mem_singleton.mpr tornField_valid
  have hreads : ∀ b ∈ [(⟨"X int \x60a;b\x60", some tornField⟩ : BodyLine)], b.Reads :=
    forall_mem_singleton.mpr ⟨rfl, tornField_valid.toWritten⟩
  have hlines := Run.Between.struct_run_apart (r := {}) hreads ⟨rfl, rfl⟩ 1 hopening (by decide)
    (by decide : trim "\x7d" = "\x7d")
  have hpieces : [tornField].flatMap (cuts ·.code) = (["X int R\"(a", "b)\""] : List Text) := rfl
  -- the first piece is read as the field, the second as a type that is embedded
  have hfirst : stripTag "X int R\"(a" = tornField.body.text := rfl
  have hsecond : stripTag "b)\"" = "b)" := rfl
  have hnone (s : State) : (([] : List Text).mapM Lower.structField).run s = .ok [] s := rfl
  have hrun := Lower.mapM_cons_ok
    (tornField_valid.structField_run hfirst (s := State.enterStruct (State.place {} 1 0) "T") rfl)
    (Lower.mapM_cons_ok (Lower.structField_embedded hsecond (by decide) rfl rfl) (hnone _))
  rw [← hpieces] at hrun
  have hline := Run.sourceLine_inline_ok (r := {}) ⟨rfl, rfl⟩ 1 hinline hfields hrun
    (d := ⟨"T", ["X", "static_cast<const b)&>(*this)"], ["b)"], none⟩) rfl
  obtain ⟨a, ha, hwhole⟩ : ∃ a, Run.sourceLines {} 1 (["type T struct \x7b", "X int \x60a;b\x60", "\x7d"] : List Text)
      = .ok a ∧ a.output = wholeClass := ⟨_, hlines, by with_unfolding_all rfl⟩
  obtain ⟨b, hb, htorn⟩ : ∃ b, Run.sourceLine {} 1 "type T struct \x7b X int \x60a;b\x60 \x7d" = .ok b ∧
      b.output = tornClass := ⟨_, hline, by with_unfolding_all rfl⟩
  refine ⟨a, b, ha, hb, hwhole, htorn, fun h => ?_⟩
  have hlength := congrArg length h.output
  rw [length_map, length_map, hwhole, htorn] at hlength
  exact absurd hlength (by decide)

end Linewise
