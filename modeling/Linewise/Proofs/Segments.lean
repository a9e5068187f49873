/-
  The segments of a text, and of the same text with its code respelled.

  A literal or comment keeps its length whatever follows, as long as what ended it stays. So a
  function that keeps code code changes the code segments and nothing else.
-/
import Linewise.Program.Segment
import Linewise.Proofs.Trim

namespace Linewise

open Text List

variable {b b' before : Option Char} {a code r rest s t x y : Text} {segs : List Segment} {c : Char}
  {k : SegmentKind} {n : Nat} {w : Follow} {len : Text → Nat}

theorem getLast?_cons_or (c : Char) (r : Text) (before : Option Char) :
    (c :: r).getLast?.or before = r.getLast?.or (some c) := by
  rw [getLast?_cons]
  cases r.getLast? <;> rfl

namespace Segment

/-! ## 1. Marks -/

/-- Two neighbours that are both word characters or both not. -/
def SameSide (b b' : Option Char) : Prop := b.any isWordChar = b'.any isWordChar

theorem opening?_congr (h : SameSide b b') (s : Text) : opening? b s = opening? b' s := by
  cases s with
  | nil => rfl
  | cons c r => rw [opening?, opening?, h]

theorem opening?_rawLiteral (h : b.any isWordChar = false) (r : Text) :
    opening? b ('R' :: '"' :: '(' :: r) = some (.literal, lengthThrough ")\"" r + 2) := by
  have hs : startsWith ('R' :: '"' :: '(' :: r) "R\"(" = true := startsWith_append "R\"(" r
  unfold opening?
  simp only [hs, h]
  rfl

theorem opening?_quote (hc : c = '"' ∨ c = '\'') (r : Text) :
    opening? b (c :: r) = some (.literal, quotedLength c r) := by
  rcases hc with rfl | rfl <;> rfl

theorem opening?_cases (h : opening? b (c :: r) = some (k, n)) :
    (∃ r', c = '/' ∧ r = '/' :: r' ∧ k = .comment ∧ n = lineLength r)
      ∨ (∃ r', c = '/' ∧ r = '*' :: r' ∧ k = .comment ∧ n = lengthThrough "*/" r' + 1)
      ∨ (∃ r', c = 'R' ∧ r = '"' :: '(' :: r' ∧ b.any isWordChar = false ∧ k = .literal
          ∧ n = lengthThrough ")\"" r' + 2)
      ∨ ((c = '"' ∨ c = '\'') ∧ k = .literal ∧ n = quotedLength c r) := by
  -- a head that is there leaves the text behind it
  have head {d : Char} (hr : r.head? = some d) : r = d :: r.tail := by
    cases r with
    | nil => cases hr
    | cons e t => rw [show e = d from Option.some.inj hr]; rfl
  rw [opening?] at h
  split at h
  · rename_i hc
    simp only [Bool.and_eq_true, beq_iff_eq] at hc
    cases h
    exact .inl ⟨r.tail, hc.1, head hc.2, rfl, rfl⟩
  · split at h
    · rename_i hc
      simp only [Bool.and_eq_true, beq_iff_eq] at hc
      cases h
      exact .inr (.inl ⟨r.tail, hc.1, head hc.2, rfl, rfl⟩)
    · split at h
      · rename_i hc
        rw [Bool.and_eq_true, Bool.not_eq_true'] at hc
        obtain ⟨t, ht⟩ := startsWith_iff.mp hc.1
        obtain ⟨rfl, rfl⟩ := cons.inj ht
        cases h
        exact .inr (.inr (.inl ⟨t, rfl, rfl, hc.2, rfl, rfl⟩))
      · split at h
        · rename_i hc
          simp only [Bool.or_eq_true, beq_iff_eq] at hc
          cases h
          exact .inr (.inr (.inr ⟨hc, rfl, rfl⟩))
        · cases h

theorem kind_of_opening? (h : opening? b (c :: r) = some (k, n)) : k ≠ .code := by
  rcases opening?_cases h with ⟨_, _, _, rfl, _⟩ | ⟨_, _, _, rfl, _⟩ | ⟨_, _, _, _, rfl, _⟩ | ⟨_, rfl, _⟩ <;>
  exact nofun

theorem head_of_opening? (h : opening? b (c :: r) = some (k, n)) : c ∈ ("/R\"'" : Text) := by
  rcases opening?_cases h with ⟨_, rfl, _⟩ | ⟨_, rfl, _⟩ | ⟨_, rfl, _⟩ | ⟨rfl | rfl, _⟩ <;> decide

/-! ## 2. What follows a literal or a comment -/

/-- What a literal or a comment has to be followed by to end where it does. -/
inductive Follow where
  | anything
  | lineEnd
  | nothing

/-- The text may follow. -/
def Follow.Allows : Follow → Text → Prop
  | anything, _ => True
  | lineEnd, s => s = [] ∨ s.head? = some '\n'
  | nothing, s => s = []

theorem lineEnd_cases (h : Follow.lineEnd.Allows t) : t = [] ∨ ∃ u, t = '\n' :: u :=
  h.imp_right head?_eq_some_iff.mp

theorem Follow.Allows.of_head (h : w.Allows x) (hhead : y.head? = x.head?) : w.Allows y := by
  have hnil (hx : x = []) : y = [] := head?_eq_none_iff.mp (hhead.trans (by rw [hx]; rfl))
  cases w with
  | anything => trivial
  | lineEnd => exact h.imp hnil hhead.trans
  | nothing => exact hnil h

/-- A length read off the text behind a mark depends on what follows only as `w` says; what runs to
    the end takes one more newline. -/
structure Settles (len : Text → Nat) (s : Text) (w : Follow) : Prop where
  le : len s ≤ s.length
  allows : w.Allows (s.drop (len s))
  stable : ∀ t, w.Allows t → len (s.take (len s) ++ t) = len s
  newline : w = .nothing → len (s ++ ['\n']) = len s + 1

theorem Settles.append (head : Text) (h : Settles len s w)
    (hlen : ∀ t, len (head ++ t) = len t + head.length) : Settles len (head ++ s) w where
  le := by
    have := h.le
    rw [hlen, length_append]
    omega
  allows := by
    rw [hlen, Nat.add_comm, drop_length_add_append]
    exact h.allows
  stable t ht := by
    rw [hlen, Nat.add_comm, take_length_add_append, append_assoc, hlen, h.stable t ht, Nat.add_comm]
  newline hw := by
    rw [append_assoc, hlen, hlen, h.newline hw]
    omega

theorem settles_quoted {q : Char} (hq : q ≠ '\\') (s : Text) : ∃ w, Settles (quotedLength q) s w := by
  induction s using quotedLength.induct q with
  | case1 =>
    refine ⟨.lineEnd, Nat.le_refl _, .inl rfl, fun t ht => ?_, nofun⟩
    obtain rfl | ⟨u, rfl⟩ := lineEnd_cases ht <;> rfl
  | case2 d r ih =>
    obtain ⟨w, hw⟩ := ih
    exact ⟨w, hw.append ['\\', d] fun t => rfl⟩
  | case3 r =>
    refine ⟨.lineEnd, Nat.zero_le _, .inr rfl, fun t ht => ?_, nofun⟩
    obtain rfl | ⟨u, rfl⟩ := lineEnd_cases ht <;> rfl
  | case4 c r hesc hn hc =>
    have hcq : c = q := by simpa using hc
    have hlen (t : Text) : quotedLength q (c :: t) = 1 := by
      rw [quotedLength_cons (hcq ▸ hq) hn, if_pos hc]
    refine ⟨.anything, ?_, trivial, fun t _ => ?_, nofun⟩
    · rw [hlen]
      simp
    · rw [hlen, take_succ_cons, take_zero, singleton_append, hlen]
  | case5 c r hesc hn hc ih =>
    by_cases hb : c = '\\'
    · -- a backslash with nothing behind it
      cases r with
      | cons d r => exact absurd rfl (hesc d r hb)
      | nil =>
        subst hb
        have hlen : quotedLength q ['\\'] = 1 := by
          rw [quotedLength.eq_4 q _ _ hesc hn, if_neg hc, quotedLength]
        refine ⟨.nothing, ?_, ?_, fun t ht => ?_, fun _ => ?_⟩
        · rw [hlen]
          simp
        · rw [hlen]
          rfl
        · rw [show t = [] from ht, hlen]
          exact hlen
        · rw [hlen]
          rfl
    · obtain ⟨w, hw⟩ := ih
      refine ⟨w, hw.append [c] fun t => ?_⟩
      rw [singleton_append, quotedLength_cons hb hn, if_neg hc]
      rfl

theorem settles_line (s : Text) : Settles lineLength s .lineEnd where
  le := (takeWhile_sublist _).length_le
  allows := by
    unfold lineLength
    induction s with
    | nil => exact .inl rfl
    | cons c r ih =>
      by_cases hc : c = '\n'
      · subst hc
        exact .inr rfl
      · simpa [hc] using ih
  stable t ht := by
    unfold lineLength
    induction s with
    | nil => obtain rfl | ⟨u, rfl⟩ := lineEnd_cases ht <;> rfl
    | cons c r ih =>
      by_cases hc : c = '\n'
      · subst hc
        obtain rfl | ⟨u, rfl⟩ := lineEnd_cases ht <;> rfl
      · simpa [hc] using ih
  newline := nofun

theorem startsWith_append_of_le {head : Text} (h : head.length ≤ a.length) (t : Text) :
    startsWith (a ++ t) head = startsWith a head := by
  unfold startsWith
  rw [Bool.eq_iff_iff, isPrefixOf_iff_prefix, isPrefixOf_iff_prefix]
  exact ⟨fun hp => prefix_of_prefix_length_le hp (prefix_append a t) h,
    fun hp => hp.trans (prefix_append a t)⟩

theorem lengthThrough_cons (closing : Text) (c : Char) (r : Text) : lengthThrough closing (c :: r)
    = if startsWith (c :: r) closing then closing.length else lengthThrough closing r + 1 := by
  unfold lengthThrough
  by_cases hs : startsWith (c :: r) closing = true
  · rw [indexOf?, if_pos hs, if_pos hs]
    exact Nat.zero_add _
  · rw [indexOf?, if_neg hs, if_neg hs]
    cases indexOf? closing r with
    | none => rfl
    | some i => exact Nat.add_right_comm i 1 closing.length

theorem settles_through {closing : Text} (hne : closing ≠ []) (hn : '\n' ∉ closing) (s : Text) :
    (Settles (lengthThrough closing) s .anything ∧ closing.length ≤ lengthThrough closing s)
      ∨ Settles (lengthThrough closing) s .nothing := by
  have hcons := lengthThrough_cons closing
  induction s with
  | nil =>
    have hnil : lengthThrough closing [] = 0 := by
      unfold lengthThrough
      rw [indexOf?, if_neg (by simpa using hne)]
      rfl
    refine .inr ⟨by rw [hnil]; exact Nat.le_refl _, drop_nil, fun t ht => ?_, fun _ => ?_⟩
    · rw [show t = [] from ht, take_nil, append_nil]
    rw [nil_append, hcons, hnil, startsWith_of_not_mem hne hn, if_neg Bool.false_ne_true]
  | cons c r ih =>
    by_cases hs : startsWith (c :: r) closing = true
    · obtain ⟨t, ht⟩ := startsWith_iff.mp hs
      have hlen (u : Text) : lengthThrough closing (closing ++ u) = closing.length := by
        cases hc : closing with
        | nil => exact absurd hc hne
        | cons d v =>
          rw [← hc]
          have hd : closing ++ u = d :: (v ++ u) := by rw [hc]; rfl
          rw [hd, hcons, ← hd, if_pos (startsWith_append closing u)]
      refine .inl ⟨⟨?_, trivial, fun u _ => ?_, nofun⟩, ?_⟩
      · rw [ht, hlen, length_append]
        omega
      · rw [ht, hlen, take_left, hlen]
      · exact Nat.le_of_eq (by rw [ht, hlen])
    · have hlen : lengthThrough closing (c :: r) = lengthThrough closing r + 1 := by
        rw [hcons, if_neg hs]
      rcases ih with ⟨h, hle⟩ | h
      · refine .inl ⟨⟨?_, trivial, fun t _ => ?_, nofun⟩, by omega⟩
        · have := h.le
          rw [hlen, length_cons]
          omega
        · -- the closing text fits into what is taken, so it does not start in front of it
          have hfit : closing.length ≤ (c :: r.take (lengthThrough closing r)).length := by
            rw [length_cons, length_take, Nat.min_eq_left h.le]
            omega
          have hsplit : c :: r = c :: r.take (lengthThrough closing r) ++ r.drop (lengthThrough closing r) := by
            rw [cons_append, take_append_drop]
          rw [hsplit, startsWith_append_of_le hfit] at hs
          rw [hlen, take_succ_cons, cons_append, hcons, ← cons_append,
            startsWith_append_of_le hfit, if_neg hs, h.stable t trivial]
      · have hall : r.length ≤ lengthThrough closing r := drop_eq_nil_iff.mp h.allows
        refine .inr ⟨?_, ?_, fun t ht => ?_, fun _ => ?_⟩
        · have := h.le
          rw [hlen, length_cons]
          omega
        · rw [hlen, drop_succ_cons]
          exact h.allows
        · rw [show t = [] from ht, append_nil, take_of_length_le (by rw [hlen, length_cons]; omega)]
        · rw [hlen, cons_append, hcons, if_neg, h.newline rfl]
          intro hs'
          exact hs ((startsWith_append_cons hn (c :: r) []).symm.trans hs')

theorem exists_settles_through (closing : Text) (hne : closing ≠ []) (hn : '\n' ∉ closing) (s : Text) :
    ∃ w, Settles (lengthThrough closing) s w :=
  (settles_through hne hn s).elim (fun h => ⟨_, h.1⟩) fun h => ⟨_, h⟩

theorem Settles.follow (h : Settles len s w) (head : Text)
    (hopen : ∀ t, opening? b (c :: (head ++ t)) = some (k, len t + head.length)) :
    ∃ w : Follow, len s + head.length ≤ (head ++ s).length ∧ w.Allows ((head ++ s).drop (len s + head.length))
      ∧ (∀ t, w.Allows t → opening? b (c :: ((head ++ s).take (len s + head.length) ++ t))
          = some (k, len s + head.length))
      ∧ (w = .nothing → opening? b (c :: (head ++ s ++ ['\n'])) = some (k, len s + head.length + 1)) := by
  have hle := h.le
  refine ⟨w, by rw [length_append]; omega, ?_, fun t ht => ?_, fun hw => ?_⟩
  · rw [Nat.add_comm, drop_length_add_append]
    exact h.allows
  · rw [Nat.add_comm, take_length_add_append, append_assoc, hopen, h.stable t ht, Nat.add_comm]
  · rw [append_assoc, hopen, h.newline hw, Nat.add_right_comm]

/-- It keeps its length whatever follows. -/
theorem exists_follow (h : opening? b (c :: r) = some (k, n)) :
    ∃ w : Follow, n ≤ r.length ∧ w.Allows (r.drop n)
      ∧ (∀ t, w.Allows t → opening? b (c :: (r.take n ++ t)) = some (k, n))
      ∧ (w = .nothing → opening? b (c :: (r ++ ['\n'])) = some (k, n + 1)) := by
  rcases opening?_cases h with ⟨r', rfl, rfl, rfl, rfl⟩ | ⟨r', rfl, rfl, rfl, rfl⟩
    | ⟨r', rfl, rfl, hb, rfl, rfl⟩ | ⟨hc, rfl, rfl⟩
  · exact (settles_line r').follow ['/'] fun _ => rfl
  · obtain ⟨w, hw⟩ := exists_settles_through "*/" (by decide) (by decide) r'
    exact hw.follow ['*'] fun _ => rfl
  · obtain ⟨w, hw⟩ := exists_settles_through ")\"" (by decide) (by decide) r'
    exact hw.follow ['"', '('] (opening?_rawLiteral hb)
  · have hq : c ≠ '\\' := by rcases hc with rfl | rfl <;> decide
    obtain ⟨w, hw⟩ := settles_quoted hq r
    exact hw.follow [] (opening?_quote hc)

/-! ## 3. The segments as a relation -/

/-- No literal and no comment starts in `code`, with `rest` behind it. -/
def IsCode (before : Option Char) : Text → Text → Prop
  | [], _ => True
  | c :: r, rest => opening? before (c :: (r ++ rest)) = none ∧ IsCode (some c) r rest

theorem isCode_append {b : Text} :
    IsCode before (a ++ b) rest ↔ IsCode before a (b ++ rest) ∧ IsCode (a.getLast?.or before) b rest := by
  induction a generalizing before with
  | nil => exact ⟨fun h => ⟨trivial, h⟩, fun h => h.2⟩
  | cons c a ih =>
    rw [getLast?_cons_or, cons_append, IsCode, IsCode, ih, append_assoc, and_assoc]

/-- The text is at its end, or a literal or a comment starts. -/
def Stops (before : Option Char) (s : Text) : Prop := s = [] ∨ (opening? before s).isSome = true

/-- **The segments of a text behind the character `before`**: longest stretches of code, and what
    the marks between them start. -/
inductive Cut : Option Char → Text → List Segment → Prop where
  | nil (before : Option Char) : Cut before [] []
  | code {before : Option Char} {code rest : Text} {segs : List Segment} (hne : code ≠ [])
      (hcode : IsCode before code rest) (hstop : Stops code.getLast? rest)
      (hrest : Cut code.getLast? rest segs) : Cut before (code ++ rest) (⟨.code, code⟩ :: segs)
  | mark {before : Option Char} {c : Char} {r : Text} {k : SegmentKind} {n : Nat} {segs : List Segment}
      (hopen : opening? before (c :: r) = some (k, n))
      (hrest : Cut (some ((r.take n).getLast?.getD c)) (r.drop n) segs) :
      Cut before (c :: r) (⟨k, c :: r.take n⟩ :: segs)

theorem Cut.marked (hn : x.length = n) (hopen : opening? before (c :: (x ++ y)) = some (k, n))
    (h : Cut (some (x.getLast?.getD c)) y segs) : Cut before (c :: (x ++ y)) (⟨k, c :: x⟩ :: segs) := by
  have hmark := @Cut.mark _ _ _ _ _ segs hopen
  rw [take_left' hn, drop_left' hn] at hmark
  exact hmark h

theorem IsCode.not_stops (h : IsCode before code rest) (hne : code ≠ []) :
    ¬ Stops before (code ++ rest) := by
  obtain ⟨c, r, rfl⟩ := exists_cons_of_ne_nil hne
  rintro (hs | hs)
  · cases hs
  · rw [cons_append, h.1] at hs
    cases hs

theorem Cut.head_ne_code (h : Cut before s segs) (hs : Stops before s) : ∀ seg ∈ segs.head?, seg.kind ≠ .code := by
  cases h with
  | nil => exact nofun
  | code hne hcode => exact absurd hs (hcode.not_stops hne)
  | mark hopen _ =>
    intro seg hseg
    cases hseg
    exact kind_of_opening? hopen

theorem Cut.stops (h : Cut before s segs) (hk : ∀ seg ∈ segs.head?, seg.kind ≠ .code) : Stops before s := by
  cases h with
  | nil => exact .inl rfl
  | code => exact absurd rfl (hk _ rfl)
  | mark hopen _ => exact .inr (by rw [hopen]; rfl)

theorem Cut.stops_of_kinds {s' : Text} {segs' : List Segment} (h : Cut b s segs) (hs : Stops b s)
    (h' : Cut b' s' segs') (hk : segs'.head?.map kind = segs.head?.map kind) : Stops b' s' := by
  refine h'.stops fun seg hseg => ?_
  rw [hseg] at hk
  obtain ⟨old, hold, he⟩ := Option.map_eq_some_iff.mp hk.symm
  exact he ▸ h.head_ne_code hs old hold

theorem Cut.cons (hc : opening? before (c :: r) = none) (h : Cut (some c) r segs) :
    Cut before (c :: r) (onCode c segs) := by
  cases h with
  | nil => exact @Cut.code _ [c] _ _ (by simp) ⟨hc, trivial⟩ (.inl rfl) (.nil _)
  | @code _ code rest segs hne hcode hstop hrest =>
    have hlast : (c :: code).getLast? = code.getLast? := by
      cases code with
      | nil => exact absurd rfl hne
      | cons d t => rfl
    exact @Cut.code _ (c :: code) _ _ (by simp) ⟨hc, hcode⟩ (hlast ▸ hstop) (hlast ▸ hrest)
  | @mark _ d t k n segs hopen hrest =>
    have hk := kind_of_opening? hopen
    have hon : onCode c (⟨k, d :: t.take n⟩ :: segs) = ⟨.code, [c]⟩ :: ⟨k, d :: t.take n⟩ :: segs := by
      cases k with
      | code => exact absurd rfl hk
      | literal => rfl
      | comment => rfl
    rw [hon]
    exact @Cut.code _ [c] _ _ (by simp) ⟨hc, trivial⟩
      (.inr (by rw [show [c].getLast? = some c from rfl, hopen]; rfl)) (.mark hopen hrest)

theorem cut_scan (before : Option Char) (s : Text) : Cut before s (scan before s) := by
  fun_induction scan before s with
  | case1 before => exact .nil before
  | case2 before c r k n hopen ih => exact .mark hopen ih
  | case3 before c r hopen ih => exact .cons hopen ih

theorem scan_code (h : IsCode before code rest) :
    scan before (code ++ rest) = code.foldr onCode (scan (code.getLast?.or before) rest) := by
  induction code generalizing before with
  | nil => rfl
  | cons c r ih =>
    rw [cons_append, scan, h.1, foldr_cons, getLast?_cons_or, ← ih h.2]

theorem foldr_onCode (hne : code ≠ []) (h : ∀ seg ∈ segs.head?, seg.kind ≠ .code) :
    code.foldr onCode segs = ⟨.code, code⟩ :: segs := by
  induction code with
  | nil => exact absurd rfl hne
  | cons c r ih =>
    cases r with
    | nil =>
      match segs, h with
      | [], _ => rfl
      | ⟨.code, t⟩ :: _, h => exact absurd rfl (h _ rfl)
      | ⟨.literal, t⟩ :: _, _ => rfl
      | ⟨.comment, t⟩ :: _, _ => rfl
    | cons d t =>
      rw [foldr_cons, ih (by simp)]
      rfl

theorem Cut.eq_scan (h : Cut before s segs) : scan before s = segs := by
  induction h with
  | nil => rw [scan]
  | @code before code rest segs hne hcode hstop hrest ih =>
    have hlast : code.getLast?.or before = code.getLast? := by
      cases hl : code.getLast? with
      | none => exact absurd (getLast?_eq_none_iff.mp hl) hne
      | some c => rfl
    rw [scan_code hcode, hlast, ih]
    exact foldr_onCode hne (hrest.head_ne_code hstop)
  | mark hopen _ ih =>
    rw [scan, hopen]
    exact congrArg _ ih

theorem Cut.eq_nil (h : Cut before [] segs) : segs = [] := by
  have := h.eq_scan
  rw [scan] at this
  exact this.symm

/-! ## 4. Code respelled -/

/-- The segment with its code respelled. -/
def respell (f : Text → Text) (seg : Segment) : Segment :=
  if seg.kind == .code then ⟨.code, f seg.text⟩ else seg

@[simp] theorem kind_respell (f : Text → Text) (seg : Segment) : (seg.respell f).kind = seg.kind := by
  unfold respell
  split
  · rename_i h
    exact (beq_iff_eq.mp h).symm
  · rfl

theorem respell_mark (f : Text → Text) (h : opening? before (c :: r) = some (k, n)) :
    respell f ⟨k, t⟩ = ⟨k, t⟩ := by
  cases k with
  | code => exact absurd rfl (kind_of_opening? h)
  | literal => rfl
  | comment => rfl

/-- The text of segments. -/
def texts (segs : List Segment) : Text := (segs.map text).flatten

theorem Cut.texts_eq (h : Cut before s segs) : texts segs = s := by
  induction h with
  | nil => rfl
  | code _ _ _ _ ih => exact congrArg _ ih
  | @mark _ c r k n segs _ _ ih =>
    show c :: r.take n ++ texts segs = c :: r
    rw [ih, cons_append, take_append_drop]

theorem scan_ne_nil (h : s ≠ []) : scan b s ≠ [] := fun he =>
  h ((he ▸ (cut_scan b s).texts_eq).symm)

/-- The texts show the same mark in front of them. -/
structure SameMark (s s' : Text) : Prop where
  head : s.head? = s'.head?
  raw : startsWith s "\"(" = startsWith s' "\"("

/-- A change of code that leaves code code: it keeps what a mark reads of its neighbours. -/
structure KeepsCode (f : Text → Text) : Prop where
  ne_nil : ∀ {code}, code ≠ [] → f code ≠ []
  newline : ∀ {code}, code.head? = some '\n' → (f code).head? = some '\n'
  last : ∀ {code}, SameSide code.getLast? (f code).getLast?
  code : ∀ {before before' code rest rest'}, SameSide before before' → SameMark rest rest' →
    IsCode before code rest → IsCode before' (f code) rest'

theorem quotedLength_pos (q : Char) {d : Char} (hd : d ≠ '\n') (t : Text) : 0 < quotedLength q (d :: t) := by
  unfold quotedLength
  split
  · rename_i h
    cases h
  · exact Nat.succ_pos _
  · rename_i h
    exact absurd (cons.inj h).1 hd
  · split
    · exact Nat.one_pos
    · exact Nat.succ_pos _

/-- **A mark shows the same whatever follows what it starts**, if no parenthesis does where a line or the
    text ends. -/
theorem sameMark_of_opening? (h : opening? b (c :: r) = some (k, n))
    (hy : r.drop n = [] ∨ (r.drop n).head? = some '\n' → y.head? ≠ some '(') :
    SameMark (c :: r) (c :: (r.take n ++ y)) := by
  refine ⟨rfl, ?_⟩
  by_cases hc : c = '"'
  · subst hc
    have hn : n = quotedLength '"' r := by
      rcases opening?_cases h with ⟨_, he, _⟩ | ⟨_, he, _⟩ | ⟨_, he, _⟩ | ⟨_, _, he⟩
      · exact absurd he (by decide)
      · exact absurd he (by decide)
      · exact absurd he (by decide)
      · exact he
    have hno {x : Text} (hx : x.head? ≠ some '(') : startsWith ('"' :: x) "\"(" = false := by
      have htail : startsWith x "(" = false := startsWith_of_head hx
      simpa [startsWith, isPrefixOf] using htail
    cases r with
    | nil =>
      rw [take_nil, nil_append, hno (hy (.inl drop_nil))]
      rfl
    | cons d t =>
      by_cases hd : d = '\n'
      · subst hd
        obtain rfl : n = 0 := hn
        rw [take_zero, nil_append, hno (hy (.inr rfl))]
        rfl
      · have hpos := quotedLength_pos '"' hd t
        obtain ⟨m, rfl⟩ : ∃ m, n = m + 1 := ⟨n - 1, by omega⟩
        simp [startsWith, List.isPrefixOf]
  · have hno (t : Text) : startsWith (c :: t) "\"(" = false := startsWith_of_head? rfl rfl hc
    rw [hno, hno]

section Respell

variable {f : Text → Text} (hf : KeepsCode f)

include hf

theorem Cut.allows (h : Cut before s segs) (hw : w.Allows s) :
    w.Allows (texts (segs.map (respell f))) := by
  cases w with
  | anything => trivial
  | nothing =>
    obtain rfl : s = [] := hw
    rw [h.eq_nil]
    rfl
  | lineEnd =>
    cases h with
    | nil => exact .inl rfl
    | @code _ code rest segs hne hcode _ _ =>
      refine .inr ?_
      have hhead : code.head? = some '\n' := by
        cases code with
        | nil => exact absurd rfl hne
        | cons c r =>
          rcases hw with hw | hw
          · cases hw
          · exact hw
      have := hf.newline hhead
      cases hfc : f code with
      | nil => exact absurd hfc (hf.ne_nil hne)
      | cons d t =>
        rw [hfc] at this
        simpa [texts, respell, hfc] using this
    | @mark _ c r k n segs hopen _ =>
      rcases hw with hw | hw
      · cases hw
      · have hc := head_of_opening? hopen
        obtain rfl : c = '\n' := Option.some.inj hw
        exact absurd hc (by decide)

theorem Cut.sameMark (h : Cut before s segs) (hs : Stops before s) : SameMark s (texts (segs.map (respell f))) := by
  cases h with
  | nil => exact ⟨rfl, rfl⟩
  | code hne hcode => exact absurd hs (hcode.not_stops hne)
  | @mark _ c r k n segs hopen hrest =>
    have htexts : texts ((⟨k, c :: r.take n⟩ :: segs).map (respell f))
        = c :: (r.take n ++ texts (segs.map (respell f))) := by
      rw [map_cons, respell_mark f hopen]
      rfl
    rw [htexts]
    refine sameMark_of_opening? hopen fun hw => ?_
    rcases hrest.allows hf (w := .lineEnd) hw with hX | hX
    · rw [hX]
      exact nofun
    · rw [hX]
      decide

theorem Cut.respelled {before' : Option Char} (h : Cut before s segs) (hb : SameSide before before') :
    Cut before' (texts (segs.map (respell f))) (segs.map (respell f)) := by
  induction h generalizing before' with
  | nil => exact .nil _
  | @code before code rest segs hne hcode hstop hrest ih =>
    have hcut := ih hf.last
    have hmark := hrest.sameMark hf hstop
    have hkind : (segs.map (respell f)).head?.map kind = segs.head?.map kind := by cases segs <;> simp
    exact .code (hf.ne_nil hne) (hf.code hb hmark hcode) (hrest.stops_of_kinds hstop hcut hkind) hcut
  | @mark before c r k n segs hopen hrest ih =>
    obtain ⟨w, hle, hw, hstable, _⟩ := exists_follow hopen
    have hopen' := hstable _ (hrest.allows hf hw)
    rw [opening?_congr hb] at hopen'
    rw [map_cons, respell_mark f hopen]
    exact .marked (length_take_of_le hle) hopen' (ih rfl)

end Respell

end Segment

theorem texts_segments (s : Text) : Segment.texts (segments s) = s := (Segment.cut_scan none s).texts_eq

open Segment in
theorem mapCode_eq (f : Text → Text) (s : Text) : mapCode f s = texts ((segments s).map (respell f)) := by
  unfold mapCode texts
  rw [map_map]
  congr 2
  funext seg
  unfold Function.comp respell
  split <;> rfl

/-- Keeping code code changes code segments alone. -/
theorem segments_mapCode {f : Text → Text} (hf : Segment.KeepsCode f) (s : Text) :
    segments (mapCode f s) = (segments s).map (Segment.respell f) := by
  rw [mapCode_eq]
  exact ((Segment.cut_scan none s).respelled hf rfl).eq_scan

end Linewise
