/-
  White space at the ends of a text, and fixed heads and tails.
-/
import Mathlib.Data.List.DropRight
import Linewise.Text.Basic

namespace Linewise.Text

open List

variable {r s u v head tail : Text} {c d : Char} {p : Char → Bool}

/-! ## 1. White space at the ends -/

/-- Nothing but white space, as a property of the characters. -/
def Blank (s : Text) : Prop := ∀ c ∈ s, isBlank c = true

/-- What holds of every character of a text is decided along the text. -/
instance decidableForallMem (s : Text) (p : Char → Prop) [DecidablePred p] : Decidable (∀ c ∈ s, p c) :=
  decidableBAll p s

instance decidableForallMemOption (o : Option Char) (p : Char → Prop) [DecidablePred p] : Decidable (∀ c ∈ o, p c) :=
  o.decidableForallMem

instance decidableExistsMem (s : Text) (p : Char → Prop) [DecidablePred p] : Decidable (∃ c ∈ s, p c) :=
  decidableBEx p s

instance (s : Text) : Decidable (Blank s) := decidableForallMem s (isBlank · = true)

theorem append_cons_ne_nil {α : Type} (s : List α) {a : α} {t : List α} : s ++ a :: t ≠ [] :=
  append_ne_nil_of_right_ne_nil s (cons_ne_nil a t)

theorem exists_concat_of_last {p : Char → Prop} (h : ∀ c, s.getLast? = some c → p c) (hne : s ≠ []) :
    ∃ r c, s = r ++ [c] ∧ p c := by
  obtain ⟨r, c, rfl⟩ := (eq_nil_or_concat' s).resolve_left hne
  exact ⟨r, c, rfl, h c getLast?_concat⟩

theorem blank_nil : Blank [] := nofun

theorem not_mem_of_blank (h : Blank s) (hc : isBlank c = false) : c ∉ s :=
  fun hm => Bool.false_ne_true (hc.symm.trans (h c hm))

theorem isAllBlank_iff : isAllBlank s = true ↔ Blank s := all_eq_true

theorem blank_indentation (s : Text) : Blank (indentation s) := by
  intro c hc
  exact all_eq_true.mp (all_takeWhile) c hc

theorem eq_append_dropEndWhile (p : Char → Bool) (s : Text) :
    ∃ v, s = dropEndWhile p s ++ v ∧ ∀ c ∈ v, p c = true :=
  ⟨s.rtakeWhile p, rdropWhile_append_rtakeWhile.symm, fun _ hc => mem_rtakeWhile_imp hc⟩

theorem dropEndWhile_eq_self (h : ∀ c, s.getLast? = some c → p c = false) :
    dropEndWhile p s = s := by
  refine rdropWhile_eq_self_iff.mpr fun hne => ?_
  rw [h _ (getLast?_eq_some_getLast hne)]
  exact Bool.false_ne_true

theorem eq_append_trim (s : Text) : ∃ u v, s = u ++ (trim s ++ v) ∧ Blank u ∧ Blank v := by
  obtain ⟨v, hv, hb⟩ := eq_append_dropEndWhile isBlank (trimStart s)
  refine ⟨indentation s, v, ?_, blank_indentation s, hb⟩
  calc s = indentation s ++ trimStart s := (takeWhile_append_dropWhile).symm
    _ = indentation s ++ (trim s ++ v) := congrArg (indentation s ++ ·) hv

theorem infix_trim (s : Text) : trim s <:+: s := by
  obtain ⟨u, v, hs, _⟩ := eq_append_trim s
  exact ⟨u, v, by rw [append_assoc, ← hs]⟩

theorem mem_of_mem_trim (h : c ∈ trim s) : c ∈ s := (infix_trim s).subset h

theorem mem_trim_of_solid (h : c ∈ s) (hc : isBlank c = false) : c ∈ trim s := by
  obtain ⟨u, v, hs, hu, hv⟩ := eq_append_trim s
  rw [hs] at h
  have hrest := (mem_append.mp h).resolve_left (not_mem_of_blank hu hc)
  exact (mem_append.mp hrest).resolve_right (not_mem_of_blank hv hc)

theorem trimStart_append_of_blank (h : Blank u) : trimStart (u ++ s) = trimStart s :=
  dropWhile_append_of_pos h

theorem trimStart_cons_of_solid (h : isBlank c = false) : trimStart (c :: s) = c :: s :=
  dropWhile_cons_of_neg (by simp [h])

theorem trimEnd_append_of_blank (h : Blank v) : trimEnd (s ++ v) = trimEnd s := by
  unfold trimEnd dropEndWhile
  rw [reverse_append, dropWhile_append_of_pos fun c hc => h c (mem_reverse.mp hc)]

theorem trimEnd_append_cons (hc : isBlank c = false) (a s : Text) :
    trimEnd (a ++ c :: s) = a ++ c :: trimEnd s := by
  have hreverse : (a ++ c :: s).reverse = s.reverse ++ c :: a.reverse := by simp
  have hdrop : (s.reverse ++ c :: a.reverse).dropWhile isBlank = s.reverse.dropWhile isBlank ++ c :: a.reverse := by
    rw [dropWhile_append]
    split
    · rename_i h
      rw [isEmpty_iff.mp h, dropWhile_cons_of_neg (by simp [hc]), nil_append]
    · rfl
  unfold trimEnd dropEndWhile
  rw [hreverse, hdrop]
  simp

theorem trimEnd_cons_of_solid (hc : isBlank c = false) (s : Text) : trimEnd (c :: s) = c :: trimEnd s :=
  trimEnd_append_cons hc [] s

theorem trimEnd_append_of_solid (h : isBlank c = false) :
    trimEnd (s ++ [c]) = s ++ [c] := trimEnd_append_cons h s []

/-- The text starts and ends with something other than white space, or is empty. -/
def Solid (s : Text) : Prop :=
  (∀ c, s.head? = some c → isBlank c = false) ∧ (∀ c, s.getLast? = some c → isBlank c = false)

/-- The text does not start with white space. -/
def SolidStart (s : Text) : Prop := ∀ c, s.head? = some c → isBlank c = false

/-- The text does not end with white space. -/
def SolidEnd (s : Text) : Prop := ∀ c, s.getLast? = some c → isBlank c = false

theorem solidStart_cons (hc : isBlank c = false) (s : Text) : SolidStart (c :: s) :=
  fun _ h => Option.some.inj h ▸ hc

theorem SolidStart.append (h : SolidStart s) (hne : s ≠ []) (r : Text) : SolidStart (s ++ r) :=
  fun c hc => h c ((head?_append_of_ne_nil s hne).symm.trans hc)

theorem solidEnd_of_last (h : s.getLast? = some c) (hc : isBlank c = false) : SolidEnd s :=
  fun _ hd => Option.some.inj (h.symm.trans hd) ▸ hc

theorem SolidEnd.append (h : SolidEnd s) (hne : s ≠ []) (r : Text) : SolidEnd (r ++ s) :=
  fun c hc => h c ((getLast?_append_of_ne_nil r hne).symm.trans hc)

theorem solid_around (ha : Solid r) (hane : r ≠ []) (hb : Solid s) (hbne : s ≠ []) (u : Text) :
    Solid (r ++ (u ++ s)) :=
  ⟨SolidStart.append ha.1 hane _, append_assoc r u s ▸ SolidEnd.append hb.2 hbne (r ++ u)⟩

theorem trimEnd_eq_self_of_last (h : SolidEnd s) : trimEnd s = s := dropEndWhile_eq_self h

theorem trimStart_eq_self_of_head (h : SolidStart s) : trimStart s = s := by
  cases s with
  | nil => rfl
  | cons c r => exact trimStart_cons_of_solid (h c rfl)

theorem trim_eq_self_of_solid (h : Solid s) : trim s = s := by
  rw [trim, trimStart_eq_self_of_head h.1, trimEnd_eq_self_of_last h.2]

theorem trim_concat_of_solid (hs : SolidStart s) (hne : s ≠ [])
    (hc : isBlank c = false) : trim (s ++ [c]) = s ++ [c] := by
  cases s with
  | nil => exact absurd rfl hne
  | cons d r =>
    rw [trim, cons_append, trimStart_cons_of_solid (hs d rfl), ← cons_append]
    exact trimEnd_append_of_solid hc

theorem head?_dropWhile_not {α : Type} {p : α → Bool} {s : List α} {c : α} (h : (s.dropWhile p).head? = some c) :
    p c = false := by
  have := List.head?_dropWhile_not p s
  rw [h] at this
  simpa using this

theorem getLast?_trimEnd (h : (trimEnd s).getLast? = some c) : isBlank c = false := by
  unfold trimEnd dropEndWhile at h
  rw [getLast?_reverse] at h
  exact head?_dropWhile_not h

theorem trimEnd_prefix (s : Text) : trimEnd s <+: s := rdropWhile_prefix isBlank s

theorem solid_trim (s : Text) : Solid (trim s) := by
  refine ⟨fun c hc => ?_, fun c hc => getLast?_trimEnd hc⟩
  obtain ⟨v, hv⟩ := trimEnd_prefix (trimStart s)
  have hh : (trimStart s).head? = some c := by
    rw [← hv]
    exact mem_head?_append_of_mem_head? hc
  exact head?_dropWhile_not hh

@[simp] theorem trim_trim (s : Text) : trim (trim s) = trim s := trim_eq_self_of_solid (solid_trim s)

theorem head?_trim_cons (h : isBlank c = false) (s : Text) : (trim (c :: s)).head? = some c := by
  rw [trim, trimStart_cons_of_solid h, trimEnd_cons_of_solid h]
  rfl

theorem blank_of_trimStart (h : trimStart s = []) : Blank s := dropWhile_eq_nil_iff.mp h

theorem blank_of_trimEnd (h : trimEnd s = []) : Blank s := rdropWhile_eq_nil_iff.mp h

theorem trimStart_append_of_not_blank (h : ¬ Blank s) : trimStart (s ++ v) = trimStart s ++ v := by
  have hne : s.dropWhile isBlank ≠ [] := fun he => h (blank_of_trimStart he)
  unfold trimStart
  rw [dropWhile_append]
  simp only [List.isEmpty_iff]
  rw [if_neg hne]

theorem trim_trimStart (s : Text) : trim (trimStart s) = trim s := by
  have hs : trimStart (trimStart s) = trimStart s :=
    trimStart_eq_self_of_head fun c hc => head?_dropWhile_not hc
  rw [trim, hs, trim]

theorem trim_blank_append (hu : Blank u) (s : Text) : trim (u ++ s) = trim s := by
  rw [trim, trimStart_append_of_blank hu, trim]

theorem trim_of_blank (h : Blank s) : trim s = [] := by
  rw [← append_nil s, trim_blank_append h]
  rfl

theorem trim_append_blank (hv : Blank v) (s : Text) : trim (s ++ v) = trim s := by
  by_cases hs : Blank s
  · rw [trim_blank_append hs, trim_of_blank hs, trim_of_blank hv]
  · rw [trim, trimStart_append_of_not_blank hs, trimEnd_append_of_blank hv, trim]

theorem trim_append_of_blank (hu : Blank u) (hv : Blank v) : trim (u ++ (s ++ v)) = trim s := by
  rw [trim_blank_append hu, trim_append_blank hv]

theorem trim_eq_nil_iff : trim s = [] ↔ Blank s := by
  refine ⟨fun h => ?_, trim_of_blank⟩
  obtain ⟨u, v, hs, hu, hv⟩ := eq_append_trim s
  rw [h, nil_append] at hs
  rw [hs]
  exact forall_mem_append.mpr ⟨hu, hv⟩

/-! ## 2. Heads and tails -/

theorem startsWith_iff : startsWith s head = true ↔ ∃ r, s = head ++ r := by
  exact isPrefixOf_iff_prefix.trans ⟨fun ⟨r, h⟩ => ⟨r, h.symm⟩, fun ⟨r, h⟩ => ⟨r, h.symm⟩⟩

theorem startsWith_of_head {t : Text} (h : s.head? ≠ some c) : startsWith s (c :: t) = false := by
  refine Bool.eq_false_iff.mpr fun hs => h ?_
  obtain ⟨r, rfl⟩ := startsWith_iff.mp hs
  rfl

theorem startsWith_of_head? (hs : s.head? = some c) (hhead : head.head? = some d) (hne : c ≠ d) :
    startsWith s head = false := by
  obtain ⟨t, rfl⟩ := head?_eq_some_iff.mp hhead
  exact startsWith_of_head fun hd => hne (Option.some.inj (hs.symm.trans hd))

theorem startsWith_of_not_mem (hne : head ≠ []) (hc : c ∉ head) (t : Text) : startsWith (c :: t) head = false := by
  obtain ⟨d, r, rfl⟩ := exists_cons_of_ne_nil hne
  exact startsWith_of_head? rfl rfl (ne_of_not_mem_cons hc)

theorem startsWith_append_right (h : startsWith s head = true) (t : Text) : startsWith (s ++ t) head = true := by
  obtain ⟨r, rfl⟩ := startsWith_iff.mp h
  exact startsWith_iff.mpr ⟨r ++ t, append_assoc _ _ _⟩

theorem prefix_of_append (hv : ∀ c ∈ v.head?, c ∉ head) (h : head <+: s ++ v) : head <+: s := by
  obtain ⟨r, hr⟩ := h
  rcases append_eq_append_iff.mp hr with ⟨m, rfl, _⟩ | ⟨m, rfl, hm⟩
  · exact prefix_append head m
  · cases m with
    | nil => exact ⟨[], by rw [append_nil, append_nil]⟩
    | cons c m => exact absurd (by simp) (hv c (by rw [hm]; rfl))

theorem prefix_of_append_cons (hc : c ∉ head) (h : head <+: s ++ c :: v) : head <+: s :=
  prefix_of_append (fun _ hd => by cases hd; exact hc) h

theorem startsWith_append_cons (hc : c ∉ head) (a t : Text) : startsWith (a ++ c :: t) head = startsWith a head := by
  rw [Bool.eq_iff_iff, startsWith, startsWith, isPrefixOf_iff_prefix, isPrefixOf_iff_prefix]
  exact ⟨prefix_of_append_cons hc, fun h => h.trans (prefix_append a _)⟩

theorem endsWith_iff : endsWith s tail = true ↔ ∃ r, s = r ++ tail := by
  unfold endsWith
  rw [isSuffixOf_iff_suffix]
  exact ⟨fun ⟨r, h⟩ => ⟨r, h.symm⟩, fun ⟨r, h⟩ => ⟨r, h.symm⟩⟩

theorem endsWith_singleton : endsWith s [c] = (s.getLast? == some c) := by
  rw [Bool.eq_iff_iff, endsWith_iff, beq_iff_eq, getLast?_eq_some_iff]

theorem endsWith_of_getLast? (h : s.getLast? ≠ some c) : endsWith s [c] = false := by
  rw [endsWith_singleton, beq_false_of_ne h]

theorem endsWith_concat_of_ne (s : Text) (h : c ≠ d) : endsWith (s ++ [c]) [d] = false :=
  endsWith_of_getLast? (by simpa using h)

theorem startsWith_append (head r : Text) : startsWith (head ++ r) head = true :=
  startsWith_iff.mpr ⟨r, rfl⟩

theorem stripStart?_append (head r : Text) : stripStart? head (head ++ r) = some r := by
  rw [stripStart?, if_pos (startsWith_append head r), drop_left]

theorem stripStart_append (head r : Text) : stripStart head (head ++ r) = r := by
  rw [stripStart, stripStart?_append, Option.getD_some]

theorem stripStart?_eq_none (h : startsWith s head = false) : stripStart? head s = none := by
  rw [stripStart?, h, if_neg Bool.false_ne_true]

theorem stripStart_eq_self (h : startsWith s head = false) : stripStart head s = s := by
  rw [stripStart, stripStart?_eq_none h, Option.getD_none]

theorem stripEnd_eq_self (h : endsWith s tail = false) : stripEnd tail s = s := by
  rw [stripEnd, stripEnd?, h, if_neg Bool.false_ne_true, Option.getD_none]

theorem endsWith_append (r tail : Text) : endsWith (r ++ tail) tail = true :=
  endsWith_iff.mpr ⟨r, rfl⟩

theorem stripEnd?_append (tail r : Text) : stripEnd? tail (r ++ tail) = some r := by
  rw [stripEnd?, if_pos (endsWith_append r tail), length_append, Nat.add_sub_cancel, take_left]

theorem stripEnd_append (tail r : Text) : stripEnd tail (r ++ tail) = r := by
  rw [stripEnd, stripEnd?_append, Option.getD_some]

theorem trim_stripEnd_concat (hc : isBlank c = false) (s : Text) :
    trim (stripEnd [c] (trim (s ++ [c]))) = trim s := by
  by_cases hb : Blank s
  · have e : trim (s ++ [c]) = [] ++ [c] := by
      rw [trim, trimStart_append_of_blank hb, trimStart_cons_of_solid hc]
      exact trimEnd_append_of_solid (s := []) hc
    rw [e, stripEnd_append, trim_of_blank hb]
    rfl
  · have e : trim (s ++ [c]) = trimStart s ++ [c] := by
      rw [trim, trimStart_append_of_not_blank hb]
      exact trimEnd_append_of_solid hc
    rw [e, stripEnd_append, trim_trimStart]

theorem startsWith_of_indexOf? {pattern : Text} {i : Nat} (h : indexOf? pattern s = some i) :
    startsWith (s.drop i) pattern = true ∧ i ≤ s.length := by
  induction s generalizing i with
  | nil =>
    unfold indexOf? at h
    split at h
    · rename_i hp
      cases h
      rw [isEmpty_iff.mp hp]
      exact ⟨rfl, Nat.le_refl _⟩
    · cases h
  | cons c r ih =>
    unfold indexOf? at h
    split at h
    · rename_i hs
      cases h
      exact ⟨hs, Nat.zero_le _⟩
    · obtain ⟨j, hj, rfl⟩ := Option.map_eq_some_iff.mp h
      obtain ⟨hs, hle⟩ := ih hj
      exact ⟨hs, Nat.succ_le_succ hle⟩

theorem eq_append_of_stripStart? (h : stripStart? head s = some r) : s = head ++ r := by
  unfold stripStart? at h
  split at h
  · rename_i hs
    obtain ⟨t, rfl⟩ := startsWith_iff.mp hs
    cases h
    rw [drop_left]
  · cases h

theorem eq_append_of_stripEnd? (h : stripEnd? tail s = some r) : s = r ++ tail := by
  unfold stripEnd? at h
  split at h
  · rename_i hs
    obtain ⟨t, rfl⟩ := endsWith_iff.mp hs
    cases h
    rw [length_append, Nat.add_sub_cancel, take_left]
  · cases h

theorem eq_append_of_splitOnce? {a b : Text} (h : splitOnce? p s = some (a, b)) :
    ∃ c, p c = true ∧ s = a ++ c :: b := by
  unfold splitOnce? at h
  have hs := takeWhile_append_dropWhile (p := (!p ·)) (l := s)
  split at h
  · cases h
  · rename_i c r hd
    cases h
    refine ⟨c, ?_, ?_⟩
    · have := head?_dropWhile_not (by rw [hd]; rfl)
      simpa using this
    · rw [hd] at hs
      exact hs.symm

end Linewise.Text
