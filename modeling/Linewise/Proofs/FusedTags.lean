/-
  A string right behind an `R`.

  For the readers the quote opens a raw literal, and the letter is cut off with the tag. What is left
  of the field is read.
-/
import Linewise.Proofs.StructFields

namespace Linewise

open Text List

variable {a b s v y : Text}

/-! ## 1. What is left of a field -/

namespace FieldBody

/-- The body without its last letter, if anything is left. Names without a type look like an
    embedded type. -/
def shortened : FieldBody → Option FieldBody
  | named earlier last gap type =>
    if type.dropLast = [] then some (embedded (trim (joinWith [','] (earlier ++ [last]))))
    else some (named earlier last gap (trim type.dropLast))
  | embedded type => if type.dropLast = [] then none else some (embedded type.dropLast)

theorem shortened_embedded (y : Text) :
    (embedded (y ++ ['R'])).shortened = if y = [] then none else some (embedded y) := by
  rw [shortened, dropLast_concat]

theorem shortened_named (earlier : List Text) (last gap y : Text) :
    (named earlier last gap (y ++ ['R'])).shortened = if y = [] then
      some (embedded (trim (joinWith [','] (earlier ++ [last])))) else some (named earlier last gap (trim y)) := by
  rw [shortened, dropLast_concat]

theorem getLast?_named {earlier : List Text} {last gap type : Text} (hne : type ≠ []) :
    (named earlier last gap type).text.getLast? = type.getLast? := by
  obtain ⟨front, hfront⟩ := exists_joinWith_concat [','] earlier
  rw [text, hfront, ← append_assoc, ← append_assoc, getLast?_append_of_ne_nil _ hne]

/-- What is written of the body is on one line. -/
def OneLine : FieldBody → Prop
  | named earlier last _ type => (∀ n ∈ earlier ++ [last], isIdentifier (trim n) = true) ∧ '\n' ∉ type
  | embedded type => '\n' ∉ type

theorem Valid.oneLine {b : FieldBody} (hb : b.Valid) : b.OneLine := by
  cases b with
  | named earlier last gap type => exact ⟨hb.1, hb.2.2.oneLine⟩
  | embedded type =>
    obtain ⟨name, rfl⟩ := hb
    exact name.not_mem_text rfl (by decide)

end FieldBody

/-- What is read of the field: the field itself, or what is left of it without its tag. -/
def StructField.readAs (f : StructField) : List StructField :=
  if f.Fused then f.body.shortened.toList.map (⟨·, .none⟩) else [f]

/-- Read as it stands unless a string is right behind an `R`. -/
theorem StructField.Written.readAs_iff {f : StructField} (hf : f.Written) :
    f.readAs.map (·.body) = [f.body] ↔ ¬ f.Fused := by
  refine ⟨fun heq h => ?_, fun h => by rw [readAs, if_neg h]; rfl⟩
  have hlast := h.1
  have hbody := hf.body
  rw [readAs, if_pos h] at heq
  generalize f.body = body at heq hlast hbody
  cases body with
  | embedded type =>
    obtain ⟨y, rfl⟩ := getLast?_eq_some_iff.mp (show type.getLast? = some 'R' from hlast)
    rw [FieldBody.shortened_embedded] at heq
    split at heq
    · cases heq
    · have hlength := congrArg length (FieldBody.embedded.inj (singleton_inj.mp heq))
      simp at hlength
  | named earlier last gap type =>
    rw [FieldBody.getLast?_named hbody.2.2.element.ne_nil] at hlast
    obtain ⟨y, rfl⟩ := getLast?_eq_some_iff.mp hlast
    rw [FieldBody.shortened_named] at heq
    split at heq
    · cases singleton_inj.mp heq
    · -- white space is taken off what is left, so it does not grow
      obtain ⟨_, _, _, htype⟩ := FieldBody.named.inj (singleton_inj.mp heq)
      have hlength := congrArg length htype
      have := length_trim_le y
      rw [length_append, length_singleton] at hlength
      omega

theorem flatMap_readAs {fields : List StructField} (h : ∀ f ∈ fields, ¬ f.Fused) :
    fields.flatMap (·.readAs) = fields := by
  induction fields with
  | nil => rfl
  | cons f fields ih =>
    obtain ⟨hf, hrest⟩ := forall_mem_cons.mp h
    rw [flatMap_cons, ih hrest, StructField.readAs, if_neg hf]
    rfl

theorem IsPart.of_concat {sep c : Char} (hc : isBracket c = false) (hq : Lexer.isQuote c = false)
    (h : IsPart sep (s ++ [c])) : IsPart sep s := by
  obtain ⟨⟨hbrackets, hmode⟩, hwhole⟩ := h
  refine ⟨⟨?_, ?_⟩, ?_⟩
  · rw [Lexer.unclosed?_append] at hbrackets
    obtain ⟨p, hp, hlast⟩ := Option.bind_eq_some_iff.mp hbrackets
    rw [Lexer.unclosed?, Lexer.bracketStep_eq_self hc] at hlast
    cases hlast
    exact hp
  · rw [Lexer.run_append] at hmode
    exact Lexer.mode_of_step (Lexer.quotes_start.run s) hq hmode
  · unfold topIndex? at hwhole ⊢
    rw [topIndexFrom?_append] at hwhole
    exact (Option.or_eq_none_iff.mp hwhole).1

theorem splitNamesAndType_trim (s : Text) : splitNamesAndType (trim s) = splitNamesAndType s := by
  unfold splitNamesAndType
  rw [splitTop_trim rfl rfl]

section Shortened

variable {earlier : List Text} {last gap type : Text}

theorem FieldBody.readFrom_names (hid : ∀ n ∈ earlier ++ [last], isIdentifier (trim n) = true) (hgap : Blank gap) :
    (embedded (trim (joinWith [','] (earlier ++ [last])))).ReadFrom
      (trim (joinWith [','] (earlier ++ [last ++ gap]))) := by
  obtain ⟨front, hfront⟩ := exists_joinWith_concat [','] earlier
  have htrim : trim (joinWith [','] (earlier ++ [last ++ gap])) = trim (joinWith [','] (earlier ++ [last])) := by
    rw [hfront, hfront, ← append_assoc]
    exact trim_append_blank hgap _
  have hstar : '*' ∉ trim (joinWith [','] (earlier ++ [last])) := fun hmem => by
    rcases mem_joinWith (mem_of_mem_trim hmem) with hc | ⟨n, hn, hc⟩
    · exact absurd hc (by decide)
    · rcases char_of_name (hid n hn) hc with h | h
      · cases h
      · cases h
  have hread := splitNamesAndType_untyped hid (t := []) nofun blank_nil
  rw [append_nil] at hread
  rw [htrim]
  exact ⟨rfl, by rw [splitNamesAndType_trim, hread], startsWith_eq_false (by decide) hstar⟩

theorem FieldBody.readFrom_shorter (hid : ∀ n ∈ earlier ++ [last], isIdentifier (trim n) = true) (hgap : Blank gap)
    (hne : gap ≠ []) (hpart : IsPart ',' y) (hy : ¬ Blank y) :
    (named earlier last gap (trim y)).ReadFrom (trim (joinWith [','] (earlier ++ [last ++ (gap ++ y)]))) := by
  have happart : ∀ c ∈ (gap ++ y).head?, isBlank c = true := fun c hc => by
    rw [head?_append_of_ne_nil _ hne] at hc
    exact hgap c (mem_of_head? hc)
  have hwhole : IsPart ',' (gap ++ y) := by
    refine (isPart_bare (bare_of_blank hgap) (not_mem_of_blank hgap rfl)).join hpart (.inl fun hlast => ?_)
    exact absurd (hgap _ (mem_of_getLast? hlast)) (by decide)
  have hread := splitNamesAndType_typed hid happart hwhole fun hb => hy (forall_mem_append.mp hb).2
  rw [trim_blank_append hgap] at hread
  exact ⟨by rw [splitNamesAndType_trim, hread], hid⟩

end Shortened

theorem FieldBody.Valid.shortened_readFrom {b : FieldBody} (hb : b.Valid) (hlast : b.text.getLast? = some 'R')
    (hone : '\n' ∉ b.text) :
    match b.shortened with
    | none => trim b.text.dropLast = []
    | some b' => trim b.text.dropLast ≠ [] ∧ b'.ReadFrom (trim b.text.dropLast) ∧ b'.OneLine := by
  cases b with
  | embedded type =>
    obtain ⟨y, rfl⟩ := getLast?_eq_some_iff.mp (show type.getLast? = some 'R' from hlast)
    obtain ⟨name, hname⟩ := hb
    have hword (c : Char) (hc : c ∈ y) : c ∈ name.text := hname ▸ mem_append_left _ hc
    have hblank : ∀ c ∈ y, isBlank c = false := fun c hc => name.not_blank_text c (hword c hc)
    have htrim : trim y = y := trim_eq_self_of_solid (solid_of_forall hblank)
    have hdrop : (embedded (y ++ ['R'])).text.dropLast = y := dropLast_concat
    rw [hdrop, htrim, shortened_embedded]
    by_cases hy : y = []
    · rw [if_pos hy]
      exact hy
    · rw [if_neg hy]
      refine ⟨hy, ⟨rfl, splitNamesAndType_solid hblank, ?_⟩, ?_⟩
      · exact startsWith_eq_false (c := '*') (by decide) fun hc => name.not_mem_text rfl (by decide) (hword _ hc)
      · exact fun hc => name.not_mem_text rfl (by decide) (hword _ hc)
  | named earlier last gap type =>
    obtain ⟨hid, ⟨hgap, hne⟩, htype⟩ := hb
    obtain ⟨front, hfront⟩ := exists_joinWith_concat [','] earlier
    rw [getLast?_named htype.element.ne_nil] at hlast
    obtain ⟨y, rfl⟩ := getLast?_eq_some_iff.mp hlast
    have htext : (named earlier last gap (y ++ ['R'])).text
        = joinWith [','] (earlier ++ [last ++ (gap ++ y)]) ++ ['R'] := by
      rw [text, hfront, hfront]
      simp
    have hnil : trim (joinWith [','] (earlier ++ [last ++ (gap ++ y)])) ≠ [] := fun h => by
      refine not_blank_name (hid last (by simp)) fun c hc => trim_eq_nil_iff.mp h c ?_
      rw [hfront]
      simp [hc]
    rw [htext] at hone
    rw [htext, dropLast_concat, shortened_named]
    by_cases hy : y = []
    · subst hy
      rw [append_nil] at hnil hone ⊢
      refine ⟨hnil, readFrom_names hid hgap, fun hc => hone (mem_append_left _ ?_)⟩
      have hmem := mem_of_mem_trim hc
      rw [hfront] at hmem ⊢
      rw [← append_assoc]
      exact mem_append_left _ hmem
    · have hblank : ¬ Blank y := fun hblank => by
        obtain ⟨c, y, rfl⟩ := exists_cons_of_ne_nil hy
        have := htype.element.solid.1 c rfl
        rw [hblank c mem_cons_self] at this
        cases this
      rw [if_neg hy]
      refine ⟨hnil, readFrom_shorter hid hgap hne (IsPart.of_concat rfl rfl htype.element.part) hblank,
        hid, fun hc => htype.oneLine (mem_append_left _ (mem_of_mem_trim hc))⟩

end Linewise
