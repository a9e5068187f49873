/-
  Parts between braces on one line, and the cuts at every semicolon.

  A body on one line is cut at its semicolons without regard to brackets and literals, so a part is
  torn if and only if it holds a semicolon itself.
-/
import Linewise.Proofs.DeferredClosures
import Linewise.Proofs.StructFields

namespace Linewise

open Text List

variable {c : Char} {parts : List Text} {g : Text}

/-! ## 1. The text -/

/-- Parts between braces, with semicolons between them. -/
def bracedParts (parts : List Text) : Text := "\x7b " ++ (joinWith "; " parts ++ " \x7d")

theorem getLast?_bracedParts (a : Text) (parts : List Text) : (a ++ bracedParts parts).getLast? = some '\x7d' := by
  unfold bracedParts
  rw [← append_assoc, ← append_assoc, getLast?_append_of_ne_nil _ (by decide)]
  rfl

theorem endsWith_bracedParts (hc : c ≠ '\x7d') (a : Text) (parts : List Text) :
    endsWith (a ++ bracedParts parts) [c] = false := by
  refine endsWith_of_getLast? fun hlast => hc ?_
  exact Option.some.inj (hlast.symm.trans (getLast?_bracedParts a parts))

theorem wellNested_bracedParts (h : ∀ p ∈ parts, IsPart ';' p) :
    WellNested (bracedParts parts) := by
  have hjoined : WellNested (joinWith "; " parts) := wellNested_spaced (by decide) (by decide) (by decide) h
  have hspaced : WellNested (" " ++ (joinWith "; " parts ++ " ")) :=
    WellNested.append (by decide) (Bare.append_wellNested hjoined (by decide)) (by decide)
  have := hspaced.bracketed (o := '\x7b') rfl
  unfold bracedParts
  simpa using this

theorem Lexer.commentIndex?_bracedParts {l : Lexer} (hl : l.mode = .code)
    (hnested : ∀ p ∈ parts, WellNested p) (hcomment : ∀ p ∈ parts, start.commentIndex? p = none) :
    l.commentIndex? (bracedParts parts) = none := by
  have hfresh : (l.run "\x7b ").Fresh :=
    (fresh_step (isCode_of_mode hl rfl) (by decide)).run_blank (by decide)
  refine commentIndex?_eq_none (by decide) ?_
  rw [hfresh.anew.commentIndex?_eq]
  exact commentIndex?_spaced hnested hcomment (by decide)

section Converted

variable {α : Type} {text code : α → Text} {xs : List α}

theorem Raw.convert_spaced {tail : Text} (htail : ∀ c ∈ tail, Lexer.isQuote c = false)
    (h : ∀ x ∈ xs, convert (text x) = ⟨code x, false⟩ ∧ after .code (text x) = .code) :
    convert (joinWith "; " (xs.map text) ++ tail) = ⟨joinWith "; " (xs.map code) ++ tail, false⟩ := by
  have hend : convert tail = ⟨tail, false⟩ := by
    have := convert_append htail []
    rwa [append_nil, show (convert []).line = [] from rfl, append_nil] at this
  induction xs with
  | nil => exact hend
  | cons x xs ih =>
    obtain ⟨hconvert, hafter⟩ := h x mem_cons_self
    have hrest := ih (forall_mem_cons.mp h).2
    have hsplit (rest : Text) :
        convert (text x ++ rest) = ⟨code x ++ (convert rest).line, (convert rest).opened⟩ := by
      unfold convert at hconvert ⊢
      rw [convertFrom_append, hconvert, hafter]
    cases xs with
    | nil => rw [map_singleton, map_singleton, joinWith_singleton, joinWith_singleton, hsplit, hend]
    | cons y xs =>
      have hsep := convert_append (a := "; ") (by decide) (joinWith "; " ((y :: xs).map text) ++ tail)
      rw [map_cons, map_cons, map_cons, map_cons, joinWith_cons_cons, joinWith_cons_cons,
        append_assoc, append_assoc, hsplit, ← map_cons, hsep, hrest, append_assoc,
        append_assoc]
      rfl

theorem Raw.convert_bracedParts
    (h : ∀ x ∈ xs, convert (text x) = ⟨code x, false⟩ ∧ after .code (text x) = .code) :
    convert (bracedParts (xs.map text)) = ⟨bracedParts (xs.map code), false⟩ := by
  unfold bracedParts
  rw [convert_append (by decide), convert_spaced (by decide) h]

end Converted

/-! ## 2. The cuts -/

/-- The pieces between semicolons that hold more than white space. -/
def cuts (s : Text) : List Text := ((pieces (· == ';') s).map trim).filter (!·.isEmpty)

theorem cuts_append (a b : Text) : cuts (a ++ ';' :: b) = cuts a ++ cuts b := by
  unfold cuts
  rw [pieces_append rfl, map_append, filter_append]

theorem cuts_blank_append (hg : Blank g) (s : Text) : cuts (g ++ s) = cuts s := by
  obtain ⟨q, qs, hq, happend⟩ := pieces_append_of_not_mem (not_mem_of_blank (c := ';') hg rfl) s
  unfold cuts
  rw [happend, hq, map_cons, map_cons, trim_blank_append hg]

theorem cuts_append_blank (hg : Blank g) (s : Text) : cuts (s ++ g) = cuts s := by
  obtain ⟨ps, l, hs⟩ := exists_pieces_concat (· == ';') s
  have hone : pieces (· == ';') g = [g] := pieces_of_not_mem (not_mem_of_blank hg rfl)
  unfold cuts
  rw [pieces_append_eq hs hone, hs, map_append, map_append, map_singleton, map_singleton,
    trim_append_blank hg]

theorem cuts_eq_singleton {p : Text} (hsolid : trim p = p) (hne : p ≠ []) (hp : ';' ∉ p) : cuts p = [p] := by
  unfold cuts
  rw [pieces_of_not_mem hp, map_singleton, hsolid, filter_cons_of_pos (by simpa using hne), filter_nil]

theorem cuts_trim (s : Text) : cuts (trim s) = cuts s := by
  obtain ⟨u, v, hs, hu, hv⟩ := eq_append_trim s
  conv => rhs; rw [hs]
  rw [cuts_blank_append hu, cuts_append_blank hv]

theorem cuts_ne_nil {s : Text} (hc : c ∈ s) (hb : isBlank c = false) (hsep : c ≠ ';') : cuts s ≠ [] := by
  obtain ⟨l, hl, hcl⟩ := exists_mem_pieces (p := (· == ';')) |>.mpr ⟨hc, by simpa using hsep⟩
  have hpiece : trim l ≠ [] := ne_nil_of_mem (mem_trim_of_solid hcl hb)
  exact ne_nil_of_mem (mem_filter.mpr ⟨mem_map_of_mem hl, by simpa using hpiece⟩)

theorem cuts_joinWith (parts : List Text) :
    cuts (" " ++ (joinWith "; " parts ++ " ")) = parts.flatMap cuts := by
  have hspace : Blank " " := by decide
  rw [cuts_blank_append hspace, cuts_append_blank hspace]
  induction parts with
  | nil => rfl
  | cons p parts ih =>
    cases parts with
    | nil => rw [joinWith_singleton, flatMap_singleton]
    | cons q parts =>
      rw [joinWith_cons_cons, flatMap_cons, ← ih]
      show cuts (p ++ ';' :: (" " ++ joinWith "; " (q :: parts))) = _
      rw [cuts_append, cuts_blank_append hspace]

end Linewise
