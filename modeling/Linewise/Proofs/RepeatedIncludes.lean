/-
  Writing the includes twice.

  The second pass takes the includes of the first away and reads the lines below once more. Reading
  takes a carriage return from the end of a line and does not see an empty last line, so only a
  program that has one of these is changed again.
-/
import Linewise.Proofs.Preamble

namespace Linewise

open Text List

variable {l s : Text} {ls ls' : List Text}

/-! ## 1. Lines read again -/

/-- No line but the last ends with a carriage return, and the last is not empty. -/
def Rereadable (ls : List Text) : Prop :=
  (∀ l ∈ ls.dropLast, l.getLast? ≠ some '\r') ∧ ls.getLast? ≠ some []

theorem chomp_eq_self_iff : chomp l = l ↔ l.getLast? ≠ some '\r' := by
  rcases eq_nil_or_concat' l with rfl | ⟨r, c, rfl⟩
  · exact iff_of_true rfl nofun
  · rw [getLast?_concat]
    by_cases hc : c = '\r'
    · rw [hc, chomp_return]
      simp
    · exact iff_of_true (chomp_concat hc r) fun h => hc (Option.some.inj h)

theorem linesOfPieces_eq_self_iff : linesOfPieces ls = ls ↔ Rereadable ls := by
  induction ls with
  | nil => exact iff_of_true rfl ⟨nofun, nofun⟩
  | cons l ls ih =>
    cases ls with
    | nil => cases l <;> simp [linesOfPieces, Rereadable]
    | cons m ls =>
      rw [linesOfPieces, cons.injEq, ih, chomp_eq_self_iff]
      unfold Rereadable
      rw [dropLast_cons_cons, forall_mem_cons, getLast?_cons_cons, and_assoc]

theorem lines_unlines_eq (h : ∀ l ∈ ls, '\n' ∉ l) : lines (unlines ls) = linesOfPieces ls := by
  cases ls with
  | nil => rfl
  | cons l ls => rw [lines, pieces_unlines (cons_ne_nil l ls) h]

/-! ## 2. The program below its includes -/

theorem isPreamble_chomp (l : Text) : isPreamble (chomp l) = isPreamble l := by
  by_cases hl : l.getLast? = some '\r'
  · obtain ⟨r, rfl⟩ := getLast?_eq_some_iff.mp hl
    rw [chomp_return]
    by_cases hr : Blank r
    · have hall : Blank (r ++ ['\r']) := forall_mem_append.mpr ⟨hr, isAllBlank_iff.mp rfl⟩
      rw [isPreamble, isPreamble, isAllBlank_iff.mpr hr, isAllBlank_iff.mpr hall, Bool.true_or, Bool.true_or]
    · have hlead : LeadsInclude (r ++ ['\r']) ↔ LeadsInclude r := by
        refine ⟨fun h => ?_, fun h => h.append _⟩
        unfold LeadsInclude at h ⊢
        rw [trimStart_append_of_not_blank hr] at h
        exact prefix_of_append_cons (by decide) h
      have hall : ¬ Blank (r ++ ['\r']) := fun h => hr fun c hc => h c (mem_append_left _ hc)
      rw [← Bool.not_inj_iff, Bool.eq_iff_iff, Bool.not_eq_true', Bool.not_eq_true', isPreamble_eq_false,
        isPreamble_eq_false, hlead, iff_true_intro hr, iff_true_intro hall]
  · rw [chomp_eq_self_iff.mpr hl]

/-- The lines of a program below its includes: none holds a newline, and the first is no preamble. -/
structure IsBody (ls : List Text) : Prop where
  newline : ∀ l ∈ ls, '\n' ∉ l
  first : ∀ l ∈ ls.head?, isPreamble l = false

theorem isBody_dropWhile (s : Text) : IsBody ((lines s).dropWhile isPreamble) :=
  ⟨fun _ hl => newline_not_mem_of_mem_lines ((dropWhile_sublist _).subset hl), fun _ hl => head?_dropWhile_not hl⟩

theorem dropWhile_eq_self {p : Text → Bool} (h : ∀ l ∈ ls.head?, p l = false) : ls.dropWhile p = ls := by
  cases ls with
  | nil => rfl
  | cons l ls => rw [dropWhile_cons_of_neg (by rw [h l rfl]; exact Bool.false_ne_true)]

theorem IsBody.linesOfPieces (h : IsBody ls) : (linesOfPieces ls).dropWhile isPreamble = linesOfPieces ls := by
  refine dropWhile_eq_self fun l hl => ?_
  match ls with
  | [] => cases hl
  | [last] =>
    rw [Text.linesOfPieces] at hl
    split at hl
    · cases hl
    · exact h.first l hl
  | m :: n :: ls =>
    cases hl
    rw [isPreamble_chomp]
    exact h.first m rfl

theorem pieces_includeBlock (t body : Text) : ∃ pre, (∀ l ∈ pre, isPreamble l = true) ∧
    pieces (· == '\n') (includeBlock (requiredHeaders t) ++ body) = pre ++ pieces (· == '\n') body := by
  by_cases hne : requiredHeaders t = []
  · rw [hne]
    exact ⟨[], nofun, rfl⟩
  · have hlines : ∀ entry ∈ headerTable, '\n' ∉ includeLine entry.1 ∧ isPreamble (includeLine entry.1) = true := by
      decide +kernel
    have hall : ∀ l ∈ (requiredHeaders t).map includeLine, '\n' ∉ l ∧ isPreamble l = true := by
      intro l hl
      obtain ⟨header, hheader, rfl⟩ := mem_map.mp hl
      obtain ⟨entry, hentry, rfl⟩ := exists_entry_of_required hheader
      exact hlines entry hentry
    refine ⟨(requiredHeaders t).map includeLine ++ [[]], ?_, ?_⟩
    · intro l hl
      rcases mem_append.mp hl with hl | hl
      · exact (hall l hl).2
      · rw [mem_singleton.mp hl]
        rfl
    · rw [includeBlock_of_ne_nil hne, pieces_append (by rfl), pieces, if_pos (by rfl), append_assoc,
        pieces_unlines (by simpa using hne) fun l hl => (hall l hl).1]
      rfl

theorem lines_addIncludes (h : IsBody ls) (t : Text) :
    (lines (includeBlock (requiredHeaders t) ++ unlines ls)).dropWhile isPreamble = linesOfPieces ls := by
  obtain ⟨pre, hpre, hpieces⟩ := pieces_includeBlock t (unlines ls)
  have hchomp : ∀ l ∈ pre.map chomp, isPreamble l = true := by
    intro l hl
    obtain ⟨k, hk, rfl⟩ := mem_map.mp hl
    rw [isPreamble_chomp]
    exact hpre k hk
  rw [lines, hpieces, linesOfPieces_front pre (pieces_ne_nil _ _), dropWhile_append_of_pos hchomp]
  show (lines (unlines ls)).dropWhile isPreamble = _
  rw [lines_unlines_eq h.newline, h.linesOfPieces]

theorem eq_of_includeBlock_eq (h : IsBody ls) (h' : IsBody ls') {t t' : Text}
    (he : includeBlock (requiredHeaders t) ++ unlines ls = includeBlock (requiredHeaders t') ++ unlines ls') :
    ls = ls' := by
  have hread {ls : List Text} (h : IsBody ls) (t : Text) :
      (pieces (· == '\n') (includeBlock (requiredHeaders t) ++ unlines ls)).dropWhile isPreamble = ls := by
    obtain ⟨pre, hpre, hpieces⟩ := pieces_includeBlock t (unlines ls)
    rw [hpieces, dropWhile_append_of_pos hpre]
    cases ls with
    | nil => rfl
    | cons l ls => rw [pieces_unlines (cons_ne_nil l ls) h.newline, dropWhile_eq_self h.first]
  rw [← hread h t, he, hread h' t']

/-- **A second pass over a program changes nothing exactly if reading its lines takes nothing from them.** -/
theorem addIncludes_addIncludes_iff (s : Text) :
    addIncludes (addIncludes s) = addIncludes s ↔ Rereadable ((lines s).dropWhile isPreamble) := by
  have hbody := isBody_dropWhile s
  have hbody' := isBody_dropWhile (addIncludes s)
  have hagain : (lines (addIncludes s)).dropWhile isPreamble = linesOfPieces ((lines s).dropWhile isPreamble) := by
    rw [addIncludes_eq]
    exact lines_addIncludes hbody _
  rw [← linesOfPieces_eq_self_iff, ← hagain]
  constructor
  · intro h
    rw [addIncludes_eq (addIncludes s), addIncludes_eq s] at h
    rw [addIncludes_eq s] at hbody' ⊢
    exact eq_of_includeBlock_eq hbody' hbody h
  · intro h
    have hprogram : programBody (addIncludes s) = programBody s := congrArg unlines h
    rw [addIncludes_eq (addIncludes s), hprogram, ← addIncludes_eq]

/-- A blank line at the end goes with the second pass. -/
theorem addIncludes_blank_line : addIncludes (addIncludes "a\n\n") ≠ addIncludes "a\n\n" := by
  decide +kernel

end Linewise
