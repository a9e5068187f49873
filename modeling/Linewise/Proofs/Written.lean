/-
  Texts that are not empty, and the one line with nothing to write.

  Text that is there and empty has no last line for a comment. Over all kinds of lines only an append
  of nothing comes to that, as in `xs = append(xs)`.
-/
import Linewise.Proofs.Gathering
import Linewise.Proofs.LiteralSpelling

namespace Linewise

open Text List

variable {e t list valueType : Text} {c : Construction} {names parts values entries : List Text}

/-! ## 1. Results -/

namespace Lowered

/-- The line is dropped, or there is text for it. -/
def Written (l : Lowered) : Prop := l.render ≠ some []

theorem written_dropped : dropped.Written := nofun

theorem written_line (h : t ≠ []) : (line t).Written := fun e => h (Option.some.inj e)

theorem written_statement (h : ¬ Blank t) : (statement t).Written := by
  have hne : trimEnd t ≠ [] := fun he => h (blank_of_trimEnd he)
  intro he
  have hterm : terminate t = [] := Option.some.inj he
  unfold terminate at hterm
  dsimp only at hterm
  split at hterm
  · exact hne hterm
  · split at hterm
    · exact absurd hterm (append_ne_nil_of_right_ne_nil _ (by decide))
    · split at hterm
      · exact hne hterm
      · split at hterm
        · exact hne hterm
        · exact absurd hterm (append_ne_nil_of_right_ne_nil _ (by decide))

theorem written_of_mem {c : Char} (hc : c ∈ t) (hb : isBlank c = false) : (statement t).Written :=
  written_statement fun h => by
    rw [h c hc] at hb
    cases hb

end Lowered

/-! ## 2. Texts that are not empty -/

theorem unlines_ne_nil {p : Text} (hp : p ∈ parts) (hne : p ≠ []) : unlines parts ≠ [] := by
  obtain ⟨c, r, rfl⟩ := exists_cons_of_ne_nil hne
  exact ne_nil_of_mem (mem_joinWith_of_mem hp mem_cons_self)

theorem joinWith_eq_nil_iff {sep : Text} (h : ∀ p ∈ parts, p ≠ []) : joinWith sep parts = [] ↔ parts = [] := by
  cases parts with
  | nil => exact ⟨fun _ => rfl, fun _ => rfl⟩
  | cons p ps =>
    exact ⟨fun he => absurd he (joinWith_ne_nil sep (h p mem_cons_self) ps), nofun⟩

theorem unlines_ne_nil_of_forall (hne : parts ≠ []) (h : ∀ p ∈ parts, p ≠ []) : unlines parts ≠ [] := by
  obtain ⟨p, ps, rfl⟩ := exists_cons_of_ne_nil hne
  exact unlines_ne_nil mem_cons_self (h p mem_cons_self)

theorem braced_ne_nil (s : Text) : braced s ≠ [] := cons_ne_nil _ _

theorem head?_init (h : construct e = .ok (some c)) : ∃ d, c.init.head? = some d ∧ isBlank d = false := by
  unfold construct at h
  split at h
  · rename_i args _
    have hmake : constructMake args = some c := Except.ok.inj h
    unfold constructMake at hmake
    split at hmake
    · cases hmake
    · split at hmake
      · cases hmake
        exact ⟨'{', rfl, rfl⟩
      · split at hmake
        · split at hmake
          · cases hmake
            exact ⟨'{', rfl, rfl⟩
          · cases hmake
            exact ⟨'(', rfl, rfl⟩
        · cases hmake
  · split at h
    · cases h
    · split at h
      · generalize mapEntries _ _ = entries at h
        cases entries with
        | error f => cases h
        | ok entries =>
          cases h
          exact ⟨'{', rfl, rfl⟩
      · split at h
        · cases h
          exact ⟨'{', rfl, rfl⟩
        · split at h
          · cases h
            exact ⟨'{', rfl, rfl⟩
          · cases h

theorem temporary_ne_nil (h : construct e = .ok (some c)) : c.temporary ≠ [] := by
  obtain ⟨d, hd, _⟩ := head?_init h
  exact append_ne_nil_of_right_ne_nil _ (ne_nil_of_mem (mem_of_head? hd))

theorem element_ne_nil (h : ¬ Blank e) : element e ≠ [] := by
  have htrim : trim e ≠ [] := fun he => h (trim_eq_nil_iff.mp he)
  rw [element_eq]
  cases ElementShape.of (trim e) with
  | keyed key v => exact cons_ne_nil _ _
  | braces inner => exact braced_ne_nil _
  | address inner =>
    simp only [ElementShape.lower]
    split
    · exact cons_ne_nil _ _
    · exact htrim
  | plain =>
    simp only [ElementShape.lower]
    split
    · rename_i c hc
      exact temporary_ne_nil hc
    · exact htrim

theorem elements_ne_nil (h : ¬ Blank list) : elements list ≠ [] := by
  rw [elements, map_attach_eq_pmap, pmap_eq_map]
  unfold splitTrailingComma
  split
  · exact append_cons_ne_nil _
  · have hparts : splitTop ',' (trim list) ≠ [] := by
      intro hnil
      unfold splitTop at hnil
      split at hnil
      · rename_i hblank
        exact h (trim_eq_nil_iff.mp (trim_trim list ▸ trim_eq_nil_iff.mpr (isAllBlank_iff.mp hblank)))
      · exact cutsFrom_ne_nil _ _ _ _ (map_eq_nil_iff.mp hnil)
    rw [append_nil]
    obtain ⟨p, ps, hps⟩ := exists_cons_of_ne_nil hparts
    rw [hps]
    cases ps with
    | nil =>
      obtain rfl : p = trim list := (eq_trim_of_splitTop hps).trans (trim_trim list)
      rw [map_cons, map_nil, joinWith_singleton]
      exact element_ne_nil fun hblank => h (trim_eq_nil_iff.mp (trim_trim list ▸ trim_eq_nil_iff.mpr hblank))
    | cons q qs =>
      rw [map_cons, map_cons, joinWith_cons_cons]
      exact append_cons_ne_nil _

theorem endsWith_comma (hne : list ≠ []) (hlast : SolidEnd list)
    (h : ∀ p ∈ splitTop ',' list, p = []) : endsWith list "," = true := by
  have hchars : ∀ c ∈ list, c = ',' ∨ isBlank c = true := by
    intro c hc
    unfold splitTop at h
    split at h
    · rename_i hblank
      exact .inr (isAllBlank_iff.mp hblank c hc)
    · rw [← joinWith_cutsFrom ',' list Lexer.start 0] at hc
      rcases mem_joinWith hc with hc | ⟨q, hq, hc⟩
      · exact .inl (mem_singleton.mp hc)
      · exact .inr (trim_eq_nil_iff.mp (h _ (mem_map_of_mem hq)) c hc)
  cases hend : list.getLast? with
  | none => exact absurd (getLast?_eq_none_iff.mp hend) hne
  | some c =>
    obtain ⟨r, rfl⟩ := getLast?_eq_some_iff.mp hend
    rcases hchars c (mem_append_right r (mem_singleton_self c)) with rfl | hblank
    · exact endsWith_append r [',']
    · rw [hlast c hend] at hblank
      cases hblank

theorem mapEntries_ne_nil (h : mapEntries list valueType = .ok entries) : ∀ e ∈ entries, e ≠ [] := by
  intro e he
  rw [mapEntries_eq] at h
  obtain ⟨x, _, hx⟩ := (exists_of_mapM h).1 _ he
  unfold mapEntry at hx
  split at hx
  · cases hx
  · unfold mapPair at hx
    split at hx
    · split at hx
      · cases hx
        exact braced_ne_nil _
      · cases hx
        exact braced_ne_nil _
    · cases hx
      exact braced_ne_nil _

theorem mapEntries_written (h : mapEntries list valueType = .ok entries) (hne : list ≠ [])
    (hlast : SolidEnd list) :
    joinWith ", " entries ++ Lower.trailingComma list ≠ [] := by
  cases entries with
  | cons e es =>
    exact append_ne_nil_of_left_ne_nil (joinWith_ne_nil _ (mapEntries_ne_nil h e mem_cons_self) es) _
  | nil =>
    have hlen := length_of_mapM (mapEntries_eq list valueType ▸ h)
    have hblank : ∀ p ∈ splitTop ',' list, p = [] := by
      intro p hp
      have hno := filter_eq_nil_iff.mp (length_eq_zero_iff.mp hlen.symm) p hp
      simpa using hno
    rw [Lower.trailingComma, if_pos (endsWith_comma hne hlast hblank)]
    exact append_cons_ne_nil _

theorem streamStatements_ne_nil (sink : Text) (run : List Text) (pieces : List Piece) (h : run ≠ [] ∨ pieces ≠ []) :
    unlines (streamStatements sink run pieces) ≠ [] := by
  have hflush {run : List Text} (hrun : run ≠ []) : unlines (flush sink run) ≠ [] := by
    rw [flush, if_neg (by simpa using hrun)]
    exact unlines_ne_nil (mem_singleton_self _) (by simp)
  induction pieces generalizing run with
  | nil => exact hflush (h.resolve_right fun hne => hne rfl)
  | cons p ps ih =>
    cases p with
    | direct text => exact ih _ (.inl (by simp))
    | formatted expr =>
      rw [streamStatements]
      exact unlines_ne_nil (mem_append_right _ mem_cons_self) (cons_ne_nil _ _)

/-! ## 3. Appends of nothing -/

namespace Binding

/-- The right side starts a function literal. -/
def isLiteral (b : Binding) : Bool := startsWith b.rhs "func(" || startsWith b.rhs "func ("

theorem isLiteral_of_head? {b : Binding} {c : Char} (h : b.rhs.head? = some c) (hc : c ≠ 'f') : b.isLiteral = false := by
  unfold isLiteral
  rw [startsWith_of_head? h rfl hc, startsWith_of_head? h rfl hc]
  rfl

end Binding

/-- **An append of nothing**: one name that stands on both sides, as in `xs = append(xs)`. -/
def Binding.IsIdle (b : Binding) : Prop :=
  b.kind = .assign ∧ isDiscard b.lhs = false ∧ (splitTop ',' b.lhs).length ≤ 1 ∧
    ∃ args, callArguments? "append" b.rhs = some args ∧ (splitTop ',' args = [] ∨ splitTop ',' args = [b.lhs])

/-- A line that appends nothing. -/
def IdleAppend (line : Text) : Prop := ∃ b, Binding.split? line = some b ∧ b.IsIdle

namespace Lower

open Lowered

theorem joinWith_appendStatements (name args : Text) (kind : Binding.Kind) :
    joinWith " " (appendStatements name args kind) = [] ↔
      kind = .assign ∧ (splitTop ',' args = [] ∨ splitTop ',' args = [name]) := by
  have hne : ∀ p ∈ appendStatements name args kind, p ≠ [] := by
    intro p hp
    rcases mem_append.mp hp with hp | hp
    · split at hp
      · rw [mem_singleton.mp hp]
        exact append_cons_ne_nil _
      · cases hp
    · obtain ⟨v, _, rfl⟩ := mem_map.mp hp
      split
      · exact append_cons_ne_nil _
      · exact append_cons_ne_nil _
  rw [joinWith_eq_nil_iff hne]
  unfold appendStatements
  cases splitTop ',' args with
  | nil => cases kind <;> simp
  | cons p ps => cases kind <;> simp

/-! ## 4. Lowered lines -/

theorem written_bindText (kind : Binding.Kind) (name v : Text) : (statement (bindText kind name v)).Written := by
  refine written_of_mem (c := '=') ?_ rfl
  cases kind with
  | define => exact mem_append_left _ (mem_append_right _ (by decide))
  | assign => exact mem_append_left _ (mem_append_right _ (by decide))

theorem written_construction (kind : Binding.Kind) (name : Text) (h : construct e = .ok (some c)) :
    (statement (match kind with
      | .define => c.declaration name
      | .assign => name ++ " = " ++ c.temporary)).Written := by
  obtain ⟨d, hd, hblank⟩ := head?_init h
  refine written_of_mem ?_ hblank
  have hmem := mem_of_head? hd
  cases kind <;> simp [Construction.declaration, Construction.temporary, hmem]

theorem written_assignParallel (hne : names ≠ []) (hpaired : values.length = names.length) (kind : Binding.Kind) :
    (assignParallel names values kind).Written := by
  unfold assignParallel
  split
  · obtain ⟨n, ns, rfl⟩ := exists_cons_of_ne_nil hne
    obtain ⟨v, vs, rfl⟩ := exists_cons_of_length_eq_add_one hpaired
    refine written_line (unlines_ne_nil mem_cons_self ?_)
    unfold defineOne
    split
    · exact cons_ne_nil _ _
    · exact cons_ne_nil _ _
  · exact written_of_mem (c := '(') (by simp) rfl

theorem written_expression {line : Text} (hline : ¬ Blank line) : (expression line).Written := by
  unfold expression
  split
  · exact written_of_mem (c := '(') (by simp) rfl
  · exact written_statement hline

theorem classOpener_ne_nil (name : Text) (bases : List Text) : classOpener name bases ≠ [] := by
  unfold classOpener
  split
  · exact cons_ne_nil _ _
  · exact cons_ne_nil _ _

theorem mem_cpp (sig : Signature) : 'a' ∈ sig.cpp := by
  unfold Signature.cpp
  simp

end Lower

end Linewise
