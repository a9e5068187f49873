/-
  Top-level splitting and top-level search.

  At a separator that cuts, the machine is in code and the depth is zero, so nothing is carried over:
  the parts of a text are what stands before its first separator at top level, and the parts of the
  rest.
-/
import Linewise.Proofs.Parts

namespace Linewise

open Text List Lexer

variable {a b s : Text} {sep : Char}

namespace Lexer

theorem level_append (l : Lexer) (a b : Text) : l.level (a ++ b) = l.level a + (l.run a).level b := by
  induction a generalizing l with
  | nil => rw [nil_append, run_nil, level, Int.zero_add]
  | cons c a ih => rw [cons_append, level, level, ih, run_cons, Int.add_assoc]

theorem Anew.level_eq {l : Lexer} (h : l.Anew s) : l.level s = start.level s := by
  cases s with
  | nil => rfl
  | cons c r => rw [level, level, h.nesting_eq, h.step_eq]

end Lexer

/-! ## 1. What a separator cuts off -/

/-- A separator behind the text is the first one at top level. -/
structure EndsAt (sep : Char) (a : Text) : Prop where
  whole : topIndex? sep a = none
  code : (start.run a).mode = .code
  level : start.level a = 0

/-- A separator is told from brackets, quotes and white space, and from the letter of raw literals. -/
structure IsSeparator (sep : Char) : Prop where
  bracket : isBracket sep = false
  quote : isQuote sep = false
  blank : isBlank sep = false
  raw : sep ≠ 'R'

theorem endsAt_of_topIndex? {i : Nat} (h : topIndex? sep s = some i) :
    EndsAt sep (s.take i) ∧ s = s.take i ++ sep :: s.drop (i + 1) := by
  obtain ⟨a, b, rfl, rfl, hcode, hlevel⟩ := eq_append_of_topIndexFrom? h
  rw [Int.zero_add] at hlevel
  have hdrop : (a ++ sep :: b).drop (a.length + 1) = b := by
    rw [← drop_drop, drop_left]
    rfl
  rw [take_left, hdrop]
  refine ⟨⟨?_, mode_of_isCode hcode, hlevel⟩, rfl⟩
  cases hi : topIndex? sep a with
  | none => rfl
  | some j =>
    unfold topIndex? at h hi
    rw [topIndexFrom?_append, hi, Option.some_or] at h
    exact absurd (lt_length_of_topIndex? hi) (by rw [Option.some.inj h]; exact Nat.lt_irrefl _)

section Separator

variable (hsep : IsSeparator sep)

include hsep

theorem EndsAt.cutsFrom_eq (h : EndsAt sep a) (b : Text) :
    cutsFrom sep start 0 (a ++ sep :: b) = a :: cutsFrom sep start 0 b :=
  cutsFrom_append_cons (by simpa [Bare] using ⟨hsep.bracket, hsep.quote⟩) hsep.raw h.whole h.code h.level b

theorem topIndex?_trim (h : topIndex? sep s = none) : topIndex? sep (trim s) = none := by
  obtain ⟨u, v, hs, hu, hv⟩ := eq_append_trim s
  rw [hs, topIndex?_around hsep.blank hu hv] at h
  exact Option.map_eq_none_iff.mp h

theorem EndsAt.trim (h : EndsAt sep a) : EndsAt sep (trim a) := by
  obtain ⟨u, v, ha, hu, hv⟩ := eq_append_trim a
  have hanew := (fresh_start.run_blank hu).anew (s := Text.trim a)
  have hcode := h.code
  have hlevel := h.level
  rw [ha, run_append, run_append] at hcode
  rw [ha, level_append, level_append, (bare_of_blank hu).level_eq, (bare_of_blank hv).level_eq,
    hanew.level_eq] at hlevel
  refine ⟨topIndex?_trim hsep h.whole, ?_, by omega⟩
  rw [← hanew.run_mode]
  exact mode_of_run_blank hv ((quotes_start.run u).run _) hcode

theorem exists_cutsFrom_eq (s : Text) : ∃ parts last, cutsFrom sep start 0 s = parts ++ [last] ∧
    (∀ p ∈ parts, EndsAt sep p) ∧ topIndex? sep last = none := by
  -- the rest behind the first separator is shorter
  induction hlen : s.length using Nat.strongRecOn generalizing s with
  | ind n ih =>
    cases hi : topIndex? sep s with
    | none => exact ⟨[], s, cutsFrom_of_none hsep.bracket hi, nofun, hi⟩
    | some i =>
      obtain ⟨hends, hs⟩ := endsAt_of_topIndex? hi
      have hshort : (s.drop (i + 1)).length < n := by
        have := lt_length_of_topIndex? hi
        rw [length_drop]
        omega
      obtain ⟨parts, last, hcuts, hparts, hlast⟩ := ih _ hshort _ rfl
      refine ⟨s.take i :: parts, last, ?_, ?_, hlast⟩
      · conv => lhs; rw [hs]
        rw [hends.cutsFrom_eq hsep, hcuts]
        rfl
      · rintro p (_ | ⟨_, hp⟩)
        · exact hends
        · exact hparts p hp

theorem map_trim_cutsFrom_spaced {parts : List Text} {last : Text} (hparts : ∀ p ∈ parts, EndsAt sep p)
    (hlast : topIndex? sep last = none) :
    (cutsFrom sep start 0 (joinWith [sep, ' '] (parts ++ [last]))).map Text.trim
      = (parts ++ [last]).map Text.trim := by
  induction parts with
  | nil => rw [nil_append, joinWith_singleton, cutsFrom_of_none hsep.bracket hlast]
  | cons p parts ih =>
    obtain ⟨q, qs, hq⟩ := exists_cons_of_ne_nil (append_cons_ne_nil parts)
    have hblank : Blank [' '] := by decide
    have hspace := cutsFrom_append hsep.bracket (topIndexFrom?_blank hsep.blank hblank start 0)
      (joinWith [sep, ' '] (q :: qs))
    rw [(bare_of_blank hblank).level_eq, (fresh_start.run_blank hblank).anew.cutsFrom_eq] at hspace
    rw [cons_append, hq, joinWith_cons_cons]
    show (cutsFrom sep start 0 (p ++ sep :: ([' '] ++ joinWith [sep, ' '] (q :: qs)))).map Text.trim = _
    rw [(hparts p mem_cons_self).cutsFrom_eq hsep, map_cons, hspace,
      map_trim_onFront hblank (cutsFrom_ne_nil _ _ _ _), map_cons, ← hq]
    exact congrArg _ (ih (forall_mem_cons.mp hparts).2)

/-! ## 2. Parts -/

theorem splitTop_eq (h : isAllBlank s = false) :
    splitTop sep s = match topIndex? sep s with
      | none => [trim s]
      | some i => trim (s.take i) ::
          if isAllBlank (s.drop (i + 1)) then [[]] else splitTop sep (s.drop (i + 1)) := by
  rw [splitTop, h, if_neg Bool.false_ne_true]
  cases hi : topIndex? sep s with
  | none => rw [cutsFrom_of_none hsep.bracket hi, map_singleton]
  | some i =>
    obtain ⟨hends, hs⟩ := endsAt_of_topIndex? hi
    conv => lhs; rw [hs]
    rw [hends.cutsFrom_eq hsep, map_cons]
    refine congrArg _ ?_
    cases hrest : isAllBlank (s.drop (i + 1)) with
    | false => rw [if_neg Bool.false_ne_true, splitTop, hrest, if_neg Bool.false_ne_true]
    | true =>
      have hblank := isAllBlank_iff.mp hrest
      rw [if_pos rfl, cutsFrom_of_none hsep.bracket (topIndexFrom?_blank hsep.blank hblank _ _), map_singleton,
        trim_of_blank hblank]

theorem topIndex?_of_mem_splitTop {p : Text} (h : p ∈ splitTop sep s) : topIndex? sep p = none := by
  obtain ⟨parts, last, hcuts, hparts, hlast⟩ := exists_cutsFrom_eq hsep s
  unfold splitTop at h
  split at h
  · cases h
  · rw [hcuts] at h
    obtain ⟨q, hq, rfl⟩ := mem_map.mp h
    rcases mem_append.mp hq with hq | hq
    · exact topIndex?_trim hsep (hparts q hq).whole
    · rw [mem_singleton.mp hq]
      exact topIndex?_trim hsep hlast

theorem splitTop_joinWith_splitTop (s : Text) :
    splitTop sep (joinWith [sep, ' '] (splitTop sep s)) = splitTop sep s := by
  cases hs : isAllBlank s with
  | true =>
    have hnil : splitTop sep s = [] := by rw [splitTop, if_pos hs]
    rw [hnil]
    rfl
  | false =>
    obtain ⟨parts, last, hcuts, hparts, hlast⟩ := exists_cutsFrom_eq hsep s
    have hsplit : splitTop sep s = parts.map trim ++ [trim last] := by
      rw [splitTop, hs, if_neg Bool.false_ne_true, hcuts, map_append, map_singleton]
    have hends : ∀ p ∈ parts.map trim, EndsAt sep p := fun p hp => by
      obtain ⟨q, hq, rfl⟩ := mem_map.mp hp
      exact (hparts q hq).trim hsep
    have hspaced := map_trim_cutsFrom_spaced hsep hends (topIndex?_trim hsep hlast)
    rw [← hsplit] at hspaced
    generalize hjoined : joinWith [sep, ' '] (splitTop sep s) = joined at hspaced
    have hfixed : (splitTop sep s).map trim = splitTop sep s := by
      conv => rhs; rw [← map_id (splitTop sep s)]
      exact map_congr_left fun p hp => trim_of_mem_splitTop hp
    rw [hfixed] at hspaced
    -- a blank text has one cut, and it would be all of `s`
    have hnb : isAllBlank joined = false := by
      refine Bool.eq_false_iff.mpr fun hb => ?_
      have hblank := isAllBlank_iff.mp hb
      rw [cutsFrom_of_none hsep.bracket (topIndexFrom?_blank hsep.blank hblank _ _), map_singleton,
        trim_of_blank hblank] at hspaced
      have hall := isAllBlank_iff.mpr (trim_eq_nil_iff.mp (eq_trim_of_splitTop hspaced.symm).symm)
      rw [hs] at hall
      cases hall
    rw [splitTop, hnb, if_neg Bool.false_ne_true, hspaced]

end Separator

/-- **Splitting at top level is canonical and agrees with the search**, for commas and semicolons
    and every text, balanced and closed or not. No part holds a separator at top level; a text
    without one is its only part, and otherwise the parts are what stands before the first and the
    parts of the rest; and the parts put together with separators and spaces are split into the same
    parts. -/
theorem splitTop_canonical (sep : Char) (hsep : sep = ',' ∨ sep = ';') (s : Text) :
    (∀ p ∈ splitTop sep s, trim p = p ∧ topIndex? sep p = none) ∧
      (isAllBlank s = false → splitTop sep s = match topIndex? sep s with
        | none => [trim s]
        | some i => trim (s.take i) ::
            if isAllBlank (s.drop (i + 1)) then [[]] else splitTop sep (s.drop (i + 1))) ∧
      splitTop sep (joinWith [sep, ' '] (splitTop sep s)) = splitTop sep s := by
  have h : IsSeparator sep := by rcases hsep with rfl | rfl <;> exact ⟨rfl, rfl, rfl, by decide⟩
  exact ⟨fun p hp => ⟨trim_of_mem_splitTop hp, topIndex?_of_mem_splitTop h hp⟩, splitTop_eq h,
    splitTop_joinWith_splitTop h s⟩

/-- A stray bracket keeps its comma, and a literal that is left open loses the white space behind it. -/
theorem splitTop_canonical_unclosed :
    splitTop ',' "f(a, b), d], e, \"g, " = (["f(a, b)", "d], e, \"g,"] : List Text) ∧
      splitTop ',' "f(a, b), d], e, \"g," = (["f(a, b)", "d], e, \"g,"] : List Text) := by
  have hparts : splitTop ',' "f(a, b), d], e, \"g, " = (["f(a, b)", "d], e, \"g,"] : List Text) := by decide
  have h := (splitTop_canonical ',' (.inl rfl) "f(a, b), d], e, \"g, ").2.2
  rw [hparts] at h
  exact ⟨hparts, h⟩

end Linewise
