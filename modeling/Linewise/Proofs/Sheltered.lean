/-
  Comments behind text that ends in code.

  Such a comment is a segment of its own whatever it says, and the passes over segments work on the
  text in front and on the text behind as if each stood alone.
-/
import Linewise.Proofs.Suffixes

namespace Linewise

open Text List

variable {segs : List Segment} {a k r s t y rest : Text} {c : Char}

/-! ## 1. Comments and what stands in front of them -/

/-- The text of a comment: two slashes and the rest of one line, with nothing blank at its end. -/
structure IsComment (k : Text) : Prop where
  slashes : ("//" : Text) <+: k
  newline : '\n' ∉ k
  last : ∀ c, k.getLast? = some c → isBlank c = false

theorem isComment_slashes : IsComment "//" where
  slashes := prefix_refl _
  newline := by decide
  last c hc := Option.some.inj hc ▸ rfl

theorem IsComment.exists_concat (h : IsComment k) : ∃ v c, k = v ++ [c] ∧ isBlank c = false :=
  exists_concat_of_last h.last (by rintro rfl; exact absurd h.slashes (by decide))

/-- Nothing, or a text with white space at its end. -/
def BlankEnd (u : Text) : Prop := ∀ c, u.getLast? = some c → isBlank c = true

/-- Nothing, or a text that starts with the end of a line. -/
def LineEnd (b : Text) : Prop := b = [] ∨ b.head? = some '\n'

theorem not_finish_of_isBlank (h : isBlank c = true) : c ∉ ("/*\"(" : Text) := by
  have hmarks : ∀ d ∈ ("/*\"(" : Text), isBlank d = false := by decide
  intro hm
  rw [hmarks c hm] at h
  cases h

theorem BlankEnd.append (h : BlankEnd y) (hne : y ≠ []) (x : Text) : BlankEnd (x ++ y) := by
  intro c hc
  rw [getLast?_append_of_ne_nil _ hne] at hc
  exact h c hc

theorem BlankEnd.of_append {x : Text} (h : BlankEnd (x ++ y)) : BlankEnd y :=
  fun c hc => h c (mem_getLast?_append_of_mem_getLast? hc)

namespace Segment

variable {b : Option Char}

/-- What ends in code, segment by segment. -/
def EndsInCode (segs : List Segment) : Prop := ∀ seg, segs.getLast? = some seg → seg.kind = .code

theorem EndsInCode.tail {seg : Segment} (h : EndsInCode (seg :: segs)) : EndsInCode segs := by
  intro last hlast
  refine h last ?_
  rw [getLast?_cons, hlast]
  rfl

theorem EndsInCode.drop_ne_nil {x : Option Char} {k : SegmentKind} {n : Nat} (h : EndsInCode (⟨k, t⟩ :: segs))
    (hopen : opening? b (c :: r) = some (k, n)) (hrest : Cut x (r.drop n) segs) : r.drop n ≠ [] := by
  intro hdrop
  rw [hdrop] at hrest
  rw [hrest.eq_nil] at h
  exact kind_of_opening? hopen (h _ rfl)

/-! ## 2. The segments around a comment -/

theorem IsCode.append {code below : Text} (h : IsCode b code below)
    (hjoin : ∀ {b c t}, c :: t <:+ code ++ below → opening? b (c :: t) = none → opening? b (c :: (t ++ rest)) = none) :
    IsCode b code (below ++ rest) := by
  induction code generalizing b with
  | nil => trivial
  | cons c code ih =>
    refine ⟨?_, ih h.2 fun hs => hjoin (hs.trans (suffix_cons c _))⟩
    rw [← append_assoc]
    exact hjoin suffix_rfl h.1

/-- Text that ends in code is cut as on its own. -/
theorem Cut.append {x : Option Char} {segs' : List Segment} (h : Cut b a segs) (hend : EndsInCode segs)
    (hlast : a.getLast?.or b = x)
    (hjoin : ∀ {b c t}, c :: t <:+ a → opening? b (c :: t) = none → opening? b (c :: (t ++ rest)) = none)
    (hstop : Stops x rest) (hrest : Cut x rest segs') : Cut b (a ++ rest) (segs ++ segs') := by
  induction h with
  | nil b =>
    subst hlast
    exact hrest
  | @code b code below segs hne hcode hstopped hbelow ih =>
    have hlast' : below.getLast?.or code.getLast? = x := by
      rw [← hlast, getLast?_append, Option.or_assoc, getLast?_eq_some_getLast hne]
      rfl
    have hstop' : Stops code.getLast? (below ++ rest) := by
      rcases hstopped with rfl | hstopped
      · exact (show code.getLast? = x from hlast') ▸ hstop
      · obtain ⟨c, t, rfl⟩ := exists_cons_of_ne_nil (l := below) (by rintro rfl; cases hstopped)
        exact .inr (opening?_append_isSome hstopped rest)
    rw [append_assoc]
    exact .code hne (hcode.append hjoin) hstop'
      (ih hend.tail hlast' fun hs => hjoin (hs.trans (suffix_append code below)))
  | @mark b c r k n segs hopen hbelow ih =>
    have hdrop := hend.drop_ne_nil hopen hbelow
    have hlast' : (r.drop n).getLast?.or (some ((r.take n).getLast?.getD c)) = x := by
      rw [← take_append_drop n r, ← cons_append, getLast?_append, getLast?_eq_some_getLast hdrop] at hlast
      rw [getLast?_eq_some_getLast hdrop]
      exact hlast
    obtain ⟨w, hle, hw, hstable, _⟩ := exists_follow hopen
    have hopen' := hstable (r.drop n ++ rest) (hw.of_head (head?_append_of_ne_nil _ hdrop))
    have hcut := Cut.marked (length_take_of_le hle) hopen'
      (ih hend.tail hlast' fun hs => hjoin (hs.trans ((drop_suffix n r).trans (suffix_cons c r))))
    rwa [← append_assoc, take_append_drop] at hcut

theorem cut_comment {b : Text} (hk : IsComment k) (hb : LineEnd b) (x : Option Char) :
    Cut x (k ++ b) (⟨.comment, k⟩ :: segments b) := by
  obtain ⟨t, rfl⟩ := hk.slashes
  have hlen : lineLength ('/' :: t ++ b) = t.length + 1 := by
    have hall : ∀ c ∈ '/' :: t, (c != '\n') = true := by
      intro c hc
      rw [bne_iff_ne]
      exact fun e => hk.newline (e ▸ mem_cons_of_mem '/' hc)
    have hstop : b.takeWhile (· != '\n') = [] := by
      obtain rfl | ⟨u, rfl⟩ := lineEnd_cases hb <;> rfl
    unfold lineLength
    rw [takeWhile_append_of_pos hall, hstop, append_nil]
    rfl
  have hopen : opening? x ('/' :: ('/' :: t ++ b)) = some (.comment, t.length + 1) := by
    rw [← hlen]
    rfl
  have hhead : b.head? ≠ some 'R' := by
    obtain rfl | ⟨u, rfl⟩ := lineEnd_cases hb
    · exact nofun
    · exact (by decide : some '\n' ≠ some 'R')
  exact .marked rfl hopen ((cut_scan none b).of_opening? (opening?_of_ne hhead _ _))

end Segment

open Segment

theorem segments_comment {b : Text} (ha : EndsInCode (segments a)) (hblank : BlankEnd a) (hk : IsComment k)
    (hb : LineEnd b) : segments (a ++ (k ++ b)) = segments a ++ ⟨.comment, k⟩ :: segments b := by
  refine ((cut_scan none a).append ha rfl (fun hs hnone => ?_) ?_ (cut_comment hk hb _)).eq_scan
  · -- what stands before a mark ends in white space, which finishes none
    obtain ⟨u, rfl⟩ := hs
    obtain ⟨v, d, hv, hd⟩ := exists_concat_of_last hblank.of_append (cons_ne_nil _ _)
    cases v with
    | nil =>
      cases hv
      exact opening?_of_not_mem (not_mark_of_isBlank hd) _ _
    | cons e v =>
      rw [cons_append] at hv
      obtain ⟨rfl, rfl⟩ := cons.inj hv
      rw [append_assoc]
      exact opening?_cons_congr (not_finish_of_isBlank hd) hnone _
  · obtain ⟨t, rfl⟩ := hk.slashes
    exact .inr rfl

theorem codeText_comment {b : Text} (ha : EndsInCode (segments a)) (hblank : BlankEnd a) (hk : IsComment k)
    (hb : LineEnd b) : codeText (a ++ (k ++ b)) = codeText a ++ ' ' :: codeText b := by
  unfold codeText
  rw [segments_comment ha hblank hk hb, map_append, flatten_append]
  rfl

/-! ## 3. Suffixes -/

namespace Segment

variable {b : Option Char}

theorem suffixed_comment (before : Option Segment) (segs : List Segment) (k : Text) (segs' : List Segment) :
    suffixed before (segs ++ ⟨.comment, k⟩ :: segs') = suffixed before segs ++ (k ++ suffixed none segs') ∧
      anySuffixed before (segs ++ ⟨.comment, k⟩ :: segs') = (anySuffixed before segs || anySuffixed none segs') := by
  induction segs generalizing before with
  | nil =>
    have hnone : ∀ next after, needsSuffix (some ⟨.comment, k⟩) next after = needsSuffix none next after :=
      fun _ _ => rfl
    obtain ⟨htext, hany⟩ := suffixed_congr hnone segs'
    refine ⟨?_, hany⟩
    show k ++ [] ++ suffixed (some ⟨.comment, k⟩) segs' = k ++ suffixed none segs'
    rw [append_nil, htext]
  | cons seg segs ih =>
    have hhead : needsSuffix before seg (segs ++ ⟨.comment, k⟩ :: segs').head? = needsSuffix before seg segs.head? := by
      cases segs <;> rfl
    obtain ⟨htext, hany⟩ := ih (some seg)
    rw [cons_append, suffixed, anySuffixed, suffixed, anySuffixed, hhead, htext, hany, append_assoc _ _ (k ++ _),
      Bool.or_assoc]
    exact ⟨rfl, rfl⟩

theorem Cut.getLast?_suffixed (h : Cut b s segs) (hend : EndsInCode segs) (before : Option Segment) :
    (suffixed before segs).getLast? = s.getLast? := by
  induction h generalizing before with
  | nil => rfl
  | @code b code rest segs hne _ _ _ ih =>
    have hsuffix : needsSuffix before ⟨.code, code⟩ segs.head? = false := rfl
    rw [suffixed, hsuffix, if_neg Bool.false_ne_true, append_nil, getLast?_append, getLast?_append,
      ih hend.tail]
  | @mark b c r k n segs hopen hrest ih =>
    have hdrop := hend.drop_ne_nil hopen hrest
    obtain ⟨d, hd⟩ : ∃ d, (r.drop n).getLast? = some d := ⟨_, getLast?_eq_some_getLast hdrop⟩
    have hlast : (c :: r.take n ++ r.drop n).getLast? = some d := by rw [getLast?_append, hd]; rfl
    rw [cons_append, take_append_drop] at hlast
    rw [suffixed, getLast?_append, ih hend.tail, hd, hlast]
    rfl

theorem Cut.suffixed (h : Cut b s segs) (hend : EndsInCode segs) {b' : Option Char} (hb : SameSide b b')
    (before : Option Segment) : EndsInCode (scan b' (Segment.suffixed before segs)) := by
  rw [(h.withSuffixes hb before).eq_scan]
  intro seg hseg
  have hkind := congrArg getLast? (kind_withSuffixes before segs)
  rw [getLast?_map, getLast?_map, hseg] at hkind
  obtain ⟨x, hx, he⟩ := Option.map_eq_some_iff.mp hkind.symm
  exact he ▸ hend x hx

end Segment

/-- **The text in front of a comment ends in code** and white space, so that a comment may follow. -/
structure Ready (a : Text) : Prop where
  code : EndsInCode (segments a)
  blank : BlankEnd a

theorem Ready.suffixStrings (h : Ready a) : Ready (suffixStrings a).1 where
  code := (cut_scan none a).suffixed h.code rfl none
  blank := by
    unfold BlankEnd
    rw [show (Linewise.suffixStrings a).1.getLast? = a.getLast? from (cut_scan none a).getLast?_suffixed h.code none]
    exact h.blank

theorem suffixStrings_comment {b : Text} (ha : Ready a) (hk : IsComment k) (hb : LineEnd b) :
    (suffixStrings (a ++ (k ++ b))).1 = (suffixStrings a).1 ++ (k ++ (suffixStrings b).1) ∧
      (suffixStrings (a ++ (k ++ b))).2 = ((suffixStrings a).2 || (suffixStrings b).2) := by
  unfold suffixStrings
  rw [segments_comment ha.code ha.blank hk hb]
  exact suffixed_comment none (segments a) k (segments b)

theorem LineEnd.suffixStrings {b : Text} (h : LineEnd b) : LineEnd (suffixStrings b).1 := by
  have hhead : (Linewise.suffixStrings b).1.head? = b.head? := (cut_scan none b).head?_suffixed none
  rcases h with rfl | h
  · exact .inl (head?_eq_none_iff.mp hhead)
  · exact .inr (hhead.trans h)

/-! ## 4. Symbols -/

attribute [local irreducible] settlePath replaceSymbolsInCode

theorem not_isPathChar_of_isBlank (h : isBlank c = true) : isPathChar c = false := by
  refine Bool.eq_false_iff.mpr fun hp => ?_
  rw [not_isBlank_of_isPathChar hp] at h
  cases h

theorem texts_append (segs segs' : List Segment) : texts (segs ++ segs') = texts segs ++ texts segs' := by
  unfold texts
  rw [map_append, flatten_append]

theorem blankEnd_replaceSymbolsInCode (h : BlankEnd t) : BlankEnd (replaceSymbolsInCode t) := by
  by_cases hne : t = []
  · subst hne
    rw [replaceSymbolsInCode_nil]
    exact nofun
  · obtain ⟨v, d, rfl, hd⟩ := exists_concat_of_last h hne
    obtain ⟨front, hfront⟩ := exists_replaceSymbolsInCode (not_isPathChar_of_isBlank hd) v
    rw [hfront, replaceSymbolsInCode_nil]
    intro c hc
    rw [getLast?_concat] at hc
    exact Option.some.inj hc ▸ hd

theorem Segment.Cut.blankEnd_respelled {b : Option Char} (h : Cut b s segs) (hend : EndsInCode segs)
    (hblank : BlankEnd s) : BlankEnd (texts (segs.map (respell replaceSymbolsInCode))) := by
  -- what is there stays there
  have hstays {x : Option Char} {s : Text} {segs : List Segment} (h : Cut x s segs) (hs : s ≠ []) :
      texts (segs.map (respell replaceSymbolsInCode)) ≠ [] := by
    intro he
    have hcut : Cut x _ _ := h.respelled keepsCode_replaceSymbols rfl
    rw [he] at hcut
    rw [map_eq_nil_iff.mp hcut.eq_nil] at h
    exact hs h.texts_eq.symm
  induction h with
  | nil => exact nofun
  | @code b code rest segs _ _ _ hrest ih =>
    by_cases hnil : rest = []
    · subst hnil
      rw [hrest.eq_nil]
      rw [append_nil] at hblank
      show BlankEnd (replaceSymbolsInCode code ++ [])
      rw [append_nil]
      exact blankEnd_replaceSymbolsInCode hblank
    · exact (ih hend.tail hblank.of_append).append (hstays hrest hnil) _
  | @mark b c r k n segs hopen hrest ih =>
    have hblank' : BlankEnd (r.drop n) := by
      refine BlankEnd.of_append (x := c :: r.take n) ?_
      rw [cons_append, take_append_drop]
      exact hblank
    rw [map_cons, respell_mark _ hopen]
    exact (ih hend.tail hblank').append (hstays hrest (hend.drop_ne_nil hopen hrest)) _

theorem Ready.replaceSymbols (h : Ready a) : Ready (replaceSymbols a) where
  code := by
    unfold Linewise.replaceSymbols
    rw [segments_mapCode keepsCode_replaceSymbols]
    intro seg hseg
    rw [getLast?_map] at hseg
    obtain ⟨old, hold, rfl⟩ := Option.map_eq_some_iff.mp hseg
    rw [kind_respell]
    exact h.code old hold
  blank := by
    unfold Linewise.replaceSymbols
    rw [mapCode_eq]
    exact (cut_scan none a).blankEnd_respelled h.code h.blank

theorem replaceSymbols_comment {b : Text} (ha : Ready a) (hk : IsComment k) (hb : LineEnd b) :
    replaceSymbols (a ++ (k ++ b)) = replaceSymbols a ++ (k ++ replaceSymbols b) := by
  unfold replaceSymbols
  rw [mapCode_eq, mapCode_eq, mapCode_eq, segments_comment ha.code ha.blank hk hb, map_append, texts_append]
  rfl

theorem LineEnd.replaceSymbols {b : Text} (h : LineEnd b) : LineEnd (replaceSymbols b) := by
  unfold Linewise.replaceSymbols
  rw [mapCode_eq]
  exact (cut_scan none b).allows keepsCode_replaceSymbols (w := .lineEnd) h

end Linewise
