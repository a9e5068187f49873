/-
  How a source is indented does not matter.

  Two sources whose lines are the same but for spaces and tabs in front keep their runs twins, with
  outputs that are the same but for spaces and tabs in front.
-/
import Linewise.Proofs.PlainLine
import Linewise.Proofs.Outline
import Linewise.Proofs.Twins

namespace Linewise

open Text List Run

variable {r r' : Run} {l m n s x y line line' : Text} {ls ls' o o' : List Text} {c : Char}

/-! ## 1. Margins of a line -/

/-- Spaces and tabs. -/
def Margin (m : Text) : Prop := ∀ c ∈ m, isMargin c = true

theorem Margin.blank (hm : Margin m) : Blank m := fun c hc => isBlank_of_isMargin (hm c hc)

theorem eq_append_dedent (s : Text) : ∃ m, Margin m ∧ s = m ++ dedent s :=
  ⟨s.takeWhile isMargin, all_eq_true.mp all_takeWhile, takeWhile_append_dropWhile.symm⟩

section

variable {m : Text} (hm : Margin m)

include hm

theorem dedent_margin (s : Text) : dedent (m ++ s) = dedent s := dropWhile_append_of_pos hm

theorem indentation_margin (s : Text) : indentation (m ++ s) = m ++ indentation s :=
  takeWhile_append_of_pos hm.blank

theorem trim_margin (s : Text) : trim (m ++ s) = trim s := by
  unfold trim
  rw [trimStart_append_of_blank hm.blank]

theorem dedent_trimEnd_margin (s : Text) : dedent (trimEnd (m ++ s)) = dedent (trimEnd s) := by
  have hreverse : (m.reverse).dropWhile isBlank = [] := by
    rw [dropWhile_eq_nil_iff]
    exact fun c hc => hm.blank c (mem_reverse.mp hc)
  unfold trimEnd dropEndWhile
  rw [reverse_append, dropWhile_append]
  split
  · rename_i hs
    rw [hreverse, isEmpty_iff.mp hs]
  · rw [reverse_append, reverse_reverse, dedent_margin hm]

theorem includes_margin {pattern : Text} (hne : pattern ≠ []) (hp : ∀ c ∈ pattern, isMargin c = false) (s : Text) :
    includes (m ++ s) pattern = includes s pattern := by
  induction m with
  | nil => rfl
  | cons c m ih =>
    have hnot : startsWith (c :: (m ++ s)) pattern = false := by
      refine startsWith_of_not_mem hne (fun hc => ?_) _
      exact Bool.false_ne_true ((hp c hc).symm.trans (hm c mem_cons_self))
    have htail := ih (forall_mem_cons.mp hm).2
    unfold includes at htail ⊢
    rw [cons_append, indexOf?, hnot, if_neg Bool.false_ne_true, Option.isSome_map, htail]

end

/-! ## 2. Outputs -/

/-- The lines are the same but for the spaces and tabs in front of them. -/
def SameButMargins (o o' : List Text) : Prop := o.map dedent = o'.map dedent

theorem dedent_reopened (h : dedent x = dedent y) (opener : Text) :
    dedent (indentation x ++ opener) = dedent (indentation y ++ opener) := by
  obtain ⟨m, hm, hx⟩ := eq_append_dedent x
  obtain ⟨n, hn, hy⟩ := eq_append_dedent y
  rw [hx, hy, indentation_margin hm, indentation_margin hn, append_assoc, append_assoc, dedent_margin hm,
    dedent_margin hn, h]

theorem map_modify_congr {f : Text → Text} (hf : ∀ x y, dedent x = dedent y → dedent (f x) = dedent (f y))
    (h : SameButMargins o o') (i : Nat) : SameButMargins (o.modify i f) (o'.modify i f) := by
  induction o generalizing o' i with
  | nil =>
    obtain rfl : o' = [] := map_eq_nil_iff.mp h.symm
    rfl
  | cons x o ih =>
    cases o' with
    | nil => cases h
    | cons y o' =>
      obtain ⟨hxy, hrest⟩ := cons.inj h
      cases i with
      | zero =>
        show dedent (f x) :: o.map dedent = dedent (f y) :: o'.map dedent
        rw [hf x y hxy, hrest]
      | succ i =>
        show dedent x :: (o.modify i f).map dedent = dedent y :: (o'.modify i f).map dedent
        rw [hxy, ih hrest i]

/-- Every step keeps outputs equal but for margins. -/
theorem stable_sameButMargins : Stable SameButMargins where
  length h := by
    have := congrArg length h
    rwa [length_map, length_map] at this
  insert h i ls := by
    unfold SameButMargins at h ⊢
    simp only [map_append, map_take, map_drop, h]
  reopen h draft := by
    unfold reopenClass
    split
    · split
      · exact h
      · exact map_modify_congr (fun x y hxy => dedent_reopened hxy _) h _
    · exact h

theorem appendComment_map (indent comment : Text) (ls : List Text) :
    appendComment comment (ls.map (indent ++ ·)) = (appendComment comment ls).map (indent ++ ·) := by
  induction ls with
  | nil => rfl
  | cons l ls ih =>
    cases ls with
    | nil =>
      show [indent ++ l ++ " " ++ comment] = [indent ++ (l ++ " " ++ comment)]
      rw [append_assoc, append_assoc, append_assoc]
    | cons k ls => exact congrArg ((indent ++ l) :: ·) ih

theorem layout_eq_map (indent : Text) (spans : Bool) (rendered comment : Option Text) :
    layout indent spans rendered comment = (layout [] spans rendered comment).map (indent ++ ·) := by
  cases rendered with
  | none => cases comment <;> rfl
  | some text =>
    have hlines : (if spans then [indent ++ text] else (lines text).map (indent ++ ·))
        = (if spans then [[] ++ text] else (lines text).map ([] ++ ·)).map (indent ++ ·) := by
      cases spans with
      | true => rfl
      | false =>
        rw [if_neg Bool.false_ne_true, if_neg Bool.false_ne_true, map_map]
        rfl
    unfold layout
    dsimp only
    rw [hlines]
    cases comment with
    | none => rfl
    | some c => exact appendComment_map indent c _

section

variable {m n : Text} (hm : Margin m) (hn : Margin n)

include hm hn

theorem layout_margins (u : Text) (spans : Bool) (rendered comment : Option Text) :
    SameButMargins (layout (m ++ u) spans rendered comment) (layout (n ++ u) spans rendered comment) := by
  unfold SameButMargins
  rw [layout_eq_map (m ++ u), layout_eq_map (n ++ u), map_map, map_map]
  refine map_congr_left fun l _ => ?_
  show dedent (m ++ u ++ l) = dedent (n ++ u ++ l)
  rw [append_assoc, append_assoc, dedent_margin hm, dedent_margin hn]

end

theorem SameButMargins.append (h : SameButMargins o o') (hl : SameButMargins ls ls') :
    SameButMargins (o ++ ls) (o' ++ ls') := by
  unfold SameButMargins at h hl ⊢
  rw [map_append, map_append, h, hl]

theorem sameButMargins_singleton (h : dedent x = dedent y) : SameButMargins [x] [y] :=
  congrArg (fun l => [l]) h

/-! ## 3. One line -/

theorem Run.emit_margins (h : r.Twin SameButMargins r') (hline : dedent line = dedent line') :
    (r.emit [line]).Twin SameButMargins (r'.emit [line']) :=
  ⟨h.state, h.pending, h.firstFunction, h.output.append (sameButMargins_singleton hline)⟩

theorem Run.logicalLine_margins (h : r.Twin SameButMargins r') (hm : Margin m) (hn : Margin n) (u text : Text)
    (spans : Bool) :
    Together (Twin SameButMargins) (r.logicalLine (m ++ u) text spans) (r'.logicalLine (n ++ u) text spans) := by
  refine logicalLine_twin h (stable_sameButMargins.length h.output) (fun comment => ?_) fun draft rendered comment => ?_
  · refine h.output.append (sameButMargins_singleton ?_)
    cases comment with
    | none => rfl
    | some c =>
      show dedent (m ++ u ++ c) = dedent (n ++ u ++ c)
      rw [append_assoc, append_assoc, dedent_margin hm, dedent_margin hn]
  · exact (stable_sameButMargins.reopen h.output draft).append (layout_margins hm hn u spans rendered comment)

theorem Run.plainLine_margins (h : r.Twin SameButMargins r') (number : Nat) (hm : Margin m) (hn : Margin n)
    (hs : '\x60' ∉ s) :
    Together (Twin SameButMargins) (r.plainLine number (m ++ s)) (r'.plainLine number (n ++ s)) := by
  have hline : dedent (m ++ s) = dedent (n ++ s) := by rw [dedent_margin hm, dedent_margin hn]
  have hend : dedent (trimEnd (m ++ s)) = dedent (trimEnd (n ++ s)) := by
    rw [dedent_trimEnd_margin hm, dedent_trimEnd_margin hn]
  have hraw : Raw.convert (trim s) = ⟨trim s, false⟩ := Raw.convert_of_not_mem fun hmem => hs (mem_of_mem_trim hmem)
  unfold plainLine
  dsimp only
  rw [trim_margin hm, trim_margin hn, hraw, h.state, indentation_margin hm, indentation_margin hn]
  split
  · exact emit_margins (h.withState _) hline
  · split
    · exact emit_margins h hend
    · rw [if_neg Bool.false_ne_true, if_neg Bool.false_ne_true]
      exact logicalLine_margins h hm hn _ _ _

theorem Run.sourceLine_margins (h : r.Twin SameButMargins r') (hpending : r.pending = none) (number : Nat)
    (hline : dedent line = dedent line') (hraw : '\x60' ∉ line) :
    Together (Twin SameButMargins) (r.sourceLine number line) (r'.sourceLine number line') := by
  obtain ⟨m, hm, hsplit⟩ := eq_append_dedent line
  obtain ⟨n, hn, hsplit'⟩ := eq_append_dedent line'
  rw [← hline] at hsplit'
  generalize dedent line = s at hsplit hsplit'
  subst hsplit hsplit'
  have h' := h.withState { r.state with lineNumber := number }
  have hincludes (k : Text) (hk : Margin k) : includes (k ++ s) "*/" = includes s "*/" :=
    includes_margin hk (by decide) (by decide) s
  rw [sourceLine_of_none hpending, sourceLine_of_none (h.pending.trans hpending), h.state]
  split
  · unfold commentLine
    rw [hincludes m hm, hincludes n hn]
    exact emit_margins (h'.withState _) hline
  · exact plainLine_margins h' number hm hn fun hs => hraw (mem_append_right m hs)

theorem Run.pending_sourceLine {number : Nat} (h : r.sourceLine number line = .ok r')
    (hpending : r.pending = none) (hraw : '\x60' ∉ line) : r'.pending = none := by
  have hconvert : Raw.convert (trim line) = ⟨trim line, false⟩ :=
    Raw.convert_of_not_mem fun hmem => hraw (mem_of_mem_trim hmem)
  rw [sourceLine_of_none hpending] at h
  split at h
  · cases h
    exact hpending
  · unfold plainLine at h
    dsimp only at h
    rw [hconvert] at h
    split at h
    · cases h
      exact hpending
    · split at h
      · cases h
        exact hpending
      · rw [if_neg Bool.false_ne_true] at h
        exact (pending_logicalLine h).trans hpending

/-! ## 4. All lines -/

theorem Run.sourceLines_margins (hlines : SameButMargins ls ls')
    (hraw : ∀ l ∈ ls, '\x60' ∉ l) (h : r.Twin SameButMargins r') (hpending : r.pending = none) (number : Nat) :
    Together (Twin SameButMargins) (r.sourceLines number ls) (r'.sourceLines number ls') := by
  induction ls generalizing ls' r r' number with
  | nil =>
    obtain rfl : ls' = [] := map_eq_nil_iff.mp hlines.symm
    exact h
  | cons line ls ih =>
    cases ls' with
    | nil => cases hlines
    | cons line' ls' =>
      obtain ⟨hline, hrest⟩ := cons.inj hlines
      have hfirst := hraw line mem_cons_self
      -- the pending literal of the next run is what this line leaves
      have hstep : Together (fun a a' => a.Twin SameButMargins a' ∧ a.pending = none)
          (r.sourceLine number line) (r'.sourceLine number line') :=
        (sourceLine_margins h hpending number hline hfirst).imp
          fun _ _ hok _ htwin => ⟨htwin, pending_sourceLine hok hpending hfirst⟩
      exact hstep.bind fun _ _ ⟨htwin, hnone⟩ =>
        ih hrest (forall_mem_cons.mp hraw).2 htwin hnone (number + 1)

theorem mem_of_mem_lines (hl : l ∈ lines s) (hc : c ∈ l) : c ∈ s := by
  obtain ⟨p, hp, hpre⟩ := exists_piece_of_mem_lines hl
  exact mem_of_mem_pieces hp (hpre.subset hc)

theorem stripStart_of_not_mem (h : c ∉ s) : stripStart [c] s = s :=
  stripStart_eq_self (startsWith_of_head fun hc => h (mem_of_head? hc))

/-- **How a source is indented does not matter.** Take two sources without backquotes and byte order
    marks whose lines are equal once the spaces and tabs in front are taken away. Their runs stop at the
    same line for the same reason, or both come to programs with the same notices and of one outline. -/
theorem lower_indentation {A B : Text} (hraw : '\x60' ∉ A) (hmarkA : '\uFEFF' ∉ A) (hmarkB : '\uFEFF' ∉ B)
    (h : (lines A).map dedent = (lines B).map dedent) :
    Together (fun p q => p.notices = q.notices ∧ outline p.cpp = outline q.cpp) (lower A) (lower B) := by
  have hlines : Together (Twin SameButMargins) (sourceLines {} 1 (lines A)) (sourceLines {} 1 (lines B)) :=
    sourceLines_margins h (fun l hl hc => hraw (mem_of_mem_lines hl hc)) ⟨rfl, rfl, rfl, rfl⟩ rfl 1
  have hrun : Together (Twin SameButMargins) (runSource A) (runSource B) := by
    unfold runSource
    rw [stripStart_of_not_mem hmarkA, stripStart_of_not_mem hmarkB]
    exact hlines.bind fun _ _ => close_twin stable_sameButMargins
  refine hrun.map fun r r' htwin => ⟨?_, ?_⟩
  · rw [htwin.state]
  · have hflags : r'.flags = r.flags := by
      unfold flags
      rw [htwin.state]
    rw [hflags]
    exact outline_finish (placed_twin stable_sameButMargins htwin) r.flags

/-- A comment that is not closed, an entry of a group and a body, indented in two ways. -/
def indentedSource : Text := "func main() \x7b\n\tvar (\n\t\tx = 1\n\t)\n\tprintln(x + \"a\n\x7d\n/* \n\tend"

/-- A source with a group, a literal that is not closed and a comment over two lines. -/
def flushSource : Text := "func main() \x7b\nvar (\n    x = 1\n \t)\nprintln(x + \"a\n\x7d\n/* \nend"

theorem lower_indentation_flushSource :
    indentedSource ≠ flushSource ∧ (lines indentedSource).map dedent = (lines flushSource).map dedent ∧
      Together (fun p q => p.notices = q.notices ∧ outline p.cpp = outline q.cpp)
        (lower indentedSource) (lower flushSource) := by
  have hlines : (lines indentedSource).map dedent = (lines flushSource).map dedent := by decide +kernel
  exact ⟨by decide +kernel, hlines,
    lower_indentation (by decide +kernel) (by decide +kernel) (by decide +kernel) hlines⟩

end Linewise
