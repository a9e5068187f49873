/-
  The suffixes of strings, read back.

  Behind a literal that is closed the letter opens the code that follows; at the end of a line that
  leaves a literal open it falls into the literal:

      "a" + x          "a"s + x          the segments "a" and s + x
      "                "s
        + x              + x             the segments "s and + x

  Either way there is a segment for each segment there was, and none of them needs a suffix.
-/
import Linewise.Proofs.Outline

namespace Linewise

open Text List

namespace Segment

variable {b : Option Char} {r s t rest : Text} {segs : List Segment} {seg : Segment} {before after : Option Segment}
  {c : Char}

/-! ## 1. The end of a literal -/

/-- The text behind an opening quote has the quote that closes it. -/
def closedBy (quote : Char) : Text → Bool
  | [] => false
  | '\\' :: _ :: r => closedBy quote r
  | c :: r => c == quote || closedBy quote r

/-- A literal has what closes it: it does not just end with its line or with the text. -/
def isClosed (seg : Segment) : Bool :=
  match stripStart? "R\"(" seg.text, seg.text with
  | some body, _ => endsWith body ")\""
  | none, quote :: r => closedBy quote r
  | none, [] => false

theorem quotedLength_letter {q : Char} (hq : q ≠ '\\') (s : Text) (hdrop : s.drop (quotedLength q s) ≠ []) :
    (closedBy q (s.take (quotedLength q s)) = true ∧
        ∀ t, quotedLength q (s.take (quotedLength q s) ++ t) = quotedLength q s) ∨
      (closedBy q (s.take (quotedLength q s)) = false ∧ (s.drop (quotedLength q s)).head? = some '\n' ∧
        ∀ t, quotedLength q (s.take (quotedLength q s) ++ 's' :: '\n' :: t) = quotedLength q s + 1) := by
  induction s using quotedLength.induct q with
  | case1 => exact absurd rfl hdrop
  | case2 d r ih =>
    refine (ih hdrop).imp (fun h => ⟨h.1, fun t => ?_⟩) fun h => ⟨h.1, h.2.1, fun t => ?_⟩
    · exact congrArg (· + 2) (h.2 t)
    · exact congrArg (· + 2) (h.2.2 t)
  | case3 r =>
    refine .inr ⟨rfl, rfl, fun t => ?_⟩
    show (if 's' == q then 1 else 0 + 1) = 1
    split <;> rfl
  | case4 c r hesc hn hc =>
    have hcq : c = q := by simpa using hc
    have hlen (t : Text) : quotedLength q (c :: t) = 1 := by
      rw [quotedLength_cons (hcq ▸ hq) hn, if_pos hc]
    rw [hlen]
    refine .inl ⟨?_, fun t => hlen t⟩
    rw [take_succ_cons, take_zero, closedBy.eq_3 q c [] (fun _ _ _ e => by cases e), hc, Bool.true_or]
  | case5 c r hesc hn hc ih =>
    by_cases hb : c = '\\'
    · -- a backslash with nothing behind it
      cases r with
      | cons d r => exact absurd rfl (hesc d r hb)
      | nil =>
        subst hb
        rw [quotedLength.eq_4 q _ _ hesc hn, if_neg hc] at hdrop
        exact absurd rfl hdrop
    · have hlen (t : Text) : quotedLength q (c :: t) = quotedLength q t + 1 := by
        rw [quotedLength_cons hb hn, if_neg hc]
      have hclosed (t : Text) : closedBy q (c :: t) = closedBy q t := by
        rw [closedBy.eq_3 q c t fun _ _ e => absurd e hb, Bool.eq_false_iff.mpr hc, Bool.false_or]
      rw [hlen] at hdrop ⊢
      rw [take_succ_cons, hclosed]
      refine (ih hdrop).imp (fun h => ⟨h.1, fun t => ?_⟩) fun h => ⟨h.1, h.2.1, fun t => ?_⟩
      · rw [cons_append, hlen, h.2]
      · rw [cons_append, hlen, h.2.2]

theorem opening?_suffix {n : Nat} (h : opening? b (c :: r) = some (.literal, n)) (hdrop : r.drop n ≠ [])
    (hrest : rest.head? = (r.drop n).head?) :
    opening? b (c :: (r.take n ++ 's' :: rest))
      = some (.literal, if isClosed ⟨.literal, c :: r.take n⟩ then n else n + 1) := by
  rcases opening?_cases h with ⟨_, _, _, he, _⟩ | ⟨_, _, _, he, _⟩ | ⟨r', rfl, rfl, hb, _, rfl⟩ | ⟨hc, _, rfl⟩
  · cases he
  · cases he
  · rw [drop_succ_cons, drop_succ_cons] at hdrop
    rcases @settles_through ")\"" (by decide) (by decide) r' with ⟨hw, _⟩ | hw
    · have hclosed : endsWith (r'.take (lengthThrough ")\"" r')) ")\"" = true := by
        unfold lengthThrough at hdrop ⊢
        cases hi : indexOf? ")\"" r' with
        | none =>
          rw [hi, drop_length] at hdrop
          exact absurd rfl hdrop
        | some i =>
          obtain ⟨hat, hle⟩ := startsWith_of_indexOf? hi
          obtain ⟨v, hv⟩ := startsWith_iff.mp hat
          rw [take_add, hv, take_left]
          exact endsWith_append _ _
      have hyes : isClosed ⟨.literal, 'R' :: '"' :: '(' :: r'.take (lengthThrough ")\"" r')⟩ = true := hclosed
      rw [take_succ_cons, take_succ_cons, cons_append, cons_append, opening?_rawLiteral hb,
        hw.stable _ trivial, hyes, if_pos rfl]
    · exact absurd hw.allows hdrop
  · have hclosed (t : Text) : isClosed ⟨.literal, c :: t⟩ = closedBy c t := by
      rcases hc with rfl | rfl <;> rfl
    have hq : c ≠ '\\' := by rcases hc with rfl | rfl <;> decide
    rw [opening?_quote hc, hclosed]
    rcases quotedLength_letter hq r hdrop with ⟨hyes, hlen⟩ | ⟨hno, hnewline, hlen⟩
    · rw [hyes, hlen, if_pos rfl]
    · obtain ⟨t, rfl⟩ := head?_eq_some_iff.mp (hrest.trans hnewline)
      rw [hno, hlen, if_neg Bool.false_ne_true]

/-! ## 2. Marks in front of suffixes -/

theorem opening?_of_ne (h : s.head? ≠ some 'R') (b b' : Option Char) : opening? b s = opening? b' s := by
  cases s with
  | nil => rfl
  | cons c r =>
    have hraw : startsWith (c :: r) "R\"(" = false := startsWith_of_head h
    rw [opening?, opening?, hraw]
    rfl

theorem isCode_sameMark {rest' : Text} (hmark : SameMark rest rest') {before : Option Char} {code : Text}
    (h : IsCode before code rest) : IsCode before code rest' := by
  induction code generalizing before with
  | nil => trivial
  | cons c code ih =>
    refine ⟨?_, ih h.2⟩
    have hnone := h.1
    have hhead {x : Char} {u : Text} (he : code ++ rest' = x :: u) : ∃ t, code ++ rest = x :: t := by
      cases code with
      | nil =>
        rw [nil_append] at he
        exact head?_eq_some_iff.mp (hmark.head.trans (by rw [he]; rfl))
      | cons d code => exact ⟨code ++ rest, by rw [← (cons.inj he).1]; rfl⟩
    cases ho : opening? before (c :: (code ++ rest')) with
    | none => rfl
    | some p =>
      rcases opening?_cases ho with ⟨u, rfl, he, _⟩ | ⟨u, rfl, he, _⟩ | ⟨u, rfl, he, hb, _⟩ | ⟨rfl | rfl, _⟩
      · obtain ⟨t, ht⟩ := hhead he
        rw [ht] at hnone
        cases hnone
      · obtain ⟨t, ht⟩ := hhead he
        rw [ht] at hnone
        cases hnone
      · -- the head of a raw literal may stand in the code in part
        obtain ⟨t, ht⟩ : ∃ t, code ++ rest = '"' :: '(' :: t := by
          match code, he with
          | [], he =>
            have hraw : startsWith rest' "\"(" = true := startsWith_iff.mpr ⟨u, he⟩
            exact startsWith_iff.mp (hmark.raw.trans hraw)
          | [d], he =>
            rw [singleton_append] at he
            obtain ⟨hd, hrest⟩ := cons.inj he
            have hparen := hmark.head
            rw [hrest] at hparen
            obtain ⟨t, ht⟩ := head?_eq_some_iff.mp hparen
            exact ⟨t, by rw [hd, ht]; rfl⟩
          | d :: e :: code, he =>
            rw [cons_append, cons_append] at he
            obtain ⟨hd, htail⟩ := cons.inj he
            exact ⟨code ++ rest, by rw [hd, (cons.inj htail).1]; rfl⟩
        rw [ht, opening?_rawLiteral hb] at hnone
        cases hnone
      · cases hnone
      · cases hnone

theorem Cut.head?_suffixed (h : Cut b s segs) (before : Option Segment) :
    (suffixed before segs).head? = s.head? := by
  cases h with
  | nil => rfl
  | code hne _ _ _ =>
    rw [suffixed, append_assoc, head?_append_of_ne_nil _ hne, head?_append_of_ne_nil _ hne]
  | mark => rfl

theorem Cut.sameMark_suffixed (h : Cut b s segs) (hs : Stops b s) (before : Option Segment) :
    SameMark s (suffixed before segs) := by
  cases h with
  | nil => exact ⟨rfl, rfl⟩
  | code hne hcode => exact absurd hs (hcode.not_stops hne)
  | @mark _ c r k n segs hopen hrest =>
    rw [suffixed, append_assoc, cons_append]
    refine sameMark_of_opening? hopen fun hw => ?_
    split
    · exact (by decide : some 's' ≠ some '(')
    · rw [nil_append, hrest.head?_suffixed]
      rcases hw with hw | hw <;> rw [hw] <;> decide

/-! ## 3. What follows a literal with a suffix -/

/-- Code goes on with a plus sign or a semicolon. -/
def GoesOn (code : Text) : Prop := ∃ c u, trimStart code = c :: u ∧ (c = '+' ∨ c = ';')

theorem goesOn_of_needsSuffix (h : needsSuffix before seg after = true) :
    seg.isString = true ∧ ∃ code, after = some ⟨.code, code⟩ ∧ GoesOn code := by
  have hnext {code head : Text} {c : Char} (hhead : startsWith (trimStart code) (c :: head) = true)
      (hc : c = '+' ∨ c = ';') : GoesOn code := by
    obtain ⟨u, hu⟩ := startsWith_iff.mp hhead
    exact ⟨c, head ++ u, hu, hc⟩
  unfold needsSuffix at h
  simp only [Bool.and_eq_true, Bool.or_eq_true] at h
  obtain ⟨hstring, hnext'⟩ := h
  have hgoes : GoesOn (codeOf after) := by
    rcases hnext' with ⟨⟨hplus, _⟩, _⟩ | ⟨hsemi, _⟩
    · exact hnext hplus (.inl rfl)
    · exact hnext hsemi (.inr rfl)
  refine ⟨hstring, ?_⟩
  match after, hgoes with
  | some ⟨.code, code⟩, hgoes => exact ⟨code, rfl, hgoes⟩
  | some ⟨.literal, _⟩, ⟨_, _, h, _⟩ => cases h
  | some ⟨.comment, _⟩, ⟨_, _, h, _⟩ => cases h
  | none, ⟨_, _, h, _⟩ => cases h

theorem kind_of_isString (h : seg.isString = true) : seg.kind = .literal := by
  unfold isString at h
  rw [Bool.and_eq_true, Bool.and_eq_true] at h
  exact beq_iff_eq.mp h.1.1

theorem GoesOn.solid (h : GoesOn (c :: t)) (hc : isBlank c = false) : c = '+' ∨ c = ';' := by
  obtain ⟨d, u, hd, hsign⟩ := h
  rw [trimStart_cons_of_solid hc] at hd
  rwa [(cons.inj hd).1]

theorem GoesOn.ne_nil (h : GoesOn t) : t ≠ [] := by
  rintro rfl
  obtain ⟨_, _, hc, _⟩ := h
  cases hc

theorem head?_of_endsInAutoInit (h : endsInAutoInit t = true) :
    (trim ((pieces (· == '\n') t).getLast?.getD t)).head? ∈ [some 'a', some 'c'] := by
  unfold endsInAutoInit at h
  split at h
  · rename_i declaration hdeclaration
    rw [eq_append_of_stripEnd? hdeclaration]
    have hfront {head r : Text} {c : Char} (he : trimEnd declaration = c :: head ++ r) :
        (declaration ++ "=").head? = some c := by
      obtain ⟨v, hv⟩ := trimEnd_prefix declaration
      rw [← hv, he]
      rfl
    cases hname : stripStart? "auto " (stripStart "const " (trimEnd declaration)) with
    | none =>
      rw [hname] at h
      cases h
    | some name =>
      have hauto := eq_append_of_stripStart? hname
      by_cases hconst : startsWith (trimEnd declaration) "const " = true
      · obtain ⟨r, hr⟩ := startsWith_iff.mp hconst
        rw [hfront hr]
        decide
      · rw [stripStart, stripStart?, if_neg hconst] at hauto
        rw [hfront hauto]
        decide
  · cases h

theorem endsInAutoInit_letter (h : GoesOn t) : endsInAutoInit ('s' :: t) = endsInAutoInit t := by
  by_cases hn : '\n' ∈ t
  · obtain ⟨x, y, rfl⟩ := append_of_mem hn
    rw [← cons_append, endsInAutoInit_newline, endsInAutoInit_newline]
  · have hno {u : Text} (hu : '\n' ∉ u) (hhead : (trim u).head? ∉ [some 'a', some 'c']) : endsInAutoInit u = false := by
      refine Bool.eq_false_iff.mpr fun he => hhead ?_
      have := head?_of_endsInAutoInit he
      rwa [pieces_of_not_mem hu] at this
    obtain ⟨c, u, hc, hsign⟩ := h
    have hsolid : isBlank c = false := by rcases hsign with rfl | rfl <;> rfl
    have htrim : (trim t).head? = some c := by
      rw [← trim_trimStart, hc]
      exact head?_trim_cons hsolid u
    rw [hno (not_mem_cons_of_ne_of_not_mem (by decide) hn) (by rw [head?_trim_cons rfl]; decide), hno hn]
    rw [htrim]
    rcases hsign with rfl | rfl <;> decide

/-! ## 4. The segments of a text with its suffixes -/

/-- The segments with their suffixes: in the code behind a closed literal, else in the literal. -/
def withSuffixes (before : Option Segment) : List Segment → List Segment
  | [] => []
  | seg :: rest =>
    if needsSuffix before seg rest.head? then
      if seg.isClosed then seg :: onCode 's' (withSuffixes (some seg) rest)
      else ⟨seg.kind, seg.text ++ ['s']⟩ :: withSuffixes (some seg) rest
    else seg :: withSuffixes (some seg) rest

theorem needsSuffix_code (before : Option Segment) (code : Text) (after : Option Segment) :
    needsSuffix before ⟨.code, code⟩ after = false := rfl

theorem withSuffixes_code (before : Option Segment) (code : Text) (segs : List Segment) :
    withSuffixes before (⟨.code, code⟩ :: segs) = ⟨.code, code⟩ :: withSuffixes (some ⟨.code, code⟩) segs := by
  rw [withSuffixes, needsSuffix_code, if_neg Bool.false_ne_true]

theorem kind_withSuffixes (before : Option Segment) (segs : List Segment) :
    (withSuffixes before segs).map kind = segs.map kind := by
  induction segs generalizing before with
  | nil => rfl
  | cons seg segs ih =>
    have hcons := ih (some seg)
    rw [withSuffixes]
    split
    · rename_i hs
      split
      · obtain ⟨_, code, hnext, _⟩ := goesOn_of_needsSuffix hs
        obtain ⟨rest, rfl⟩ := head?_eq_some_iff.mp hnext
        rw [withSuffixes_code] at hcons ⊢
        exact congrArg (seg.kind :: ·) hcons
      · exact congrArg (seg.kind :: ·) hcons
    · exact congrArg (seg.kind :: ·) hcons

theorem codeOf_head?_withSuffixes (before : Option Segment) (segs : List Segment) :
    codeOf (withSuffixes before segs).head? = codeOf segs.head? := by
  match segs with
  | [] => rfl
  | ⟨.code, code⟩ :: segs =>
    rw [withSuffixes_code]
    rfl
  | ⟨.literal, _⟩ :: segs =>
    rw [withSuffixes]
    split
    · split <;> rfl
    · rfl
  | ⟨.comment, _⟩ :: segs => rfl

theorem Cut.withSuffixes (h : Cut b s segs) {b' : Option Char} (hb : SameSide b b') (before : Option Segment) :
    Cut b' (suffixed before segs) (withSuffixes before segs) := by
  induction h generalizing b' before with
  | nil => exact .nil b'
  | @code b code rest segs hne hcode hstop hrest ih =>
    have hcut := ih rfl (some ⟨.code, code⟩)
    have hcode' := isCode_sameMark (hrest.sameMark_suffixed hstop (some ⟨.code, code⟩)) (isCode_congr hb hcode)
    have hkind := congrArg head? (kind_withSuffixes (some ⟨.code, code⟩) segs)
    rw [head?_map, head?_map] at hkind
    rw [withSuffixes_code, suffixed, needsSuffix_code, if_neg Bool.false_ne_true, append_nil]
    exact .code hne hcode' (hrest.stops_of_kinds hstop hcut hkind) hcut
  | @mark b c r k n segs hopen hrest ih =>
    obtain ⟨w, hle, hw, hstable, _⟩ := exists_follow hopen
    have hlen := length_take_of_le hle
    have hbelow := fun {x : Option Char} (hx : SameSide _ x) => ih hx (some ⟨k, c :: r.take n⟩)
    have hhead := hrest.head?_suffixed (some ⟨k, c :: r.take n⟩)
    rw [suffixed, Segment.withSuffixes, append_assoc, cons_append]
    generalize suffixed (some ⟨k, c :: r.take n⟩) segs = below at hbelow hhead ⊢
    split
    · rename_i hs
      obtain ⟨hstring, code, hnext, hgoes⟩ := goesOn_of_needsSuffix hs
      obtain rfl : k = .literal := kind_of_isString hstring
      obtain ⟨hdrop, hR⟩ : r.drop n ≠ [] ∧ (r.drop n).head? ≠ some 'R' := by
        obtain ⟨rest, rfl⟩ := head?_eq_some_iff.mp hnext
        obtain ⟨d, u, rfl⟩ := exists_cons_of_ne_nil hgoes.ne_nil
        rw [← hrest.texts_eq]
        refine ⟨cons_ne_nil _ _, fun hR => ?_⟩
        obtain rfl : d = 'R' := Option.some.inj hR
        exact absurd (hgoes.solid rfl) (by decide)
      -- what stands before the rest makes no difference to it
      have hany (x : Option Char) : Cut x below (Segment.withSuffixes (some ⟨.literal, c :: r.take n⟩) segs) :=
        (hbelow rfl).of_opening? (opening?_of_ne (hhead ▸ hR) _ x)
      have hopen' := opening?_suffix hopen hdrop hhead
      rw [opening?_congr hb] at hopen'
      rw [singleton_append]
      split
      · rename_i hclosed
        rw [if_pos hclosed] at hopen'
        exact .marked hlen hopen' (.cons (opening?_of_not_mem (by decide) _ _) (hany _))
      · rename_i hopened
        have hlen' : (r.take n ++ ['s']).length = n + 1 := by rw [length_append, hlen]; rfl
        rw [if_neg hopened, append_cons] at hopen'
        rw [append_cons]
        exact .marked hlen' hopen' (hany _)
    · have hopen' := hstable below (hw.of_head hhead)
      rw [opening?_congr hb] at hopen'
      exact .marked hlen hopen' (hbelow rfl)

theorem needsSuffix_congr {before' after' : Option Segment}
    (hb : endsInAutoInit (codeOf before') = endsInAutoInit (codeOf before)) (ha : codeOf after' = codeOf after)
    (seg : Segment) : needsSuffix before' seg after' = needsSuffix before seg after := by
  unfold needsSuffix
  rw [hb, ha]

theorem anySuffixed_withSuffixes (before before' : Option Segment) (segs : List Segment)
    (hb : endsInAutoInit (codeOf before') = endsInAutoInit (codeOf before)) :
    anySuffixed before' (withSuffixes before segs) = false ∧
      (GoesOn (codeOf segs.head?) → anySuffixed before' (onCode 's' (withSuffixes before segs)) = false) := by
  induction segs generalizing before before' with
  | nil => exact ⟨rfl, fun h => absurd rfl h.ne_nil⟩
  | cons seg segs ih =>
    refine ⟨?_, fun hgoes => ?_⟩
    · have hrest := ih (some seg) (some seg) rfl
      rw [withSuffixes]
      split
      · rename_i hs
        obtain ⟨hstring, code, hnext, hgoes⟩ := goesOn_of_needsSuffix hs
        split
        · have hany := hrest.2 (hnext ▸ hgoes)
          obtain ⟨rest, rfl⟩ := head?_eq_some_iff.mp hnext
          rw [anySuffixed, hany, Bool.or_false, withSuffixes_code]
          refine Bool.eq_false_iff.mpr fun hneeds => ?_
          obtain ⟨_, _, he, hletter⟩ := goesOn_of_needsSuffix hneeds
          cases he
          exact absurd (hletter.solid rfl) (by decide)
        · obtain ⟨k, text⟩ := seg
          obtain rfl : k = .literal := kind_of_isString hstring
          have hno : isString ⟨.literal, text ++ ['s']⟩ = false := by
            rw [isString, show "\"" = ['"'] from rfl, endsWith_concat_of_ne text (by decide), Bool.and_false]
          rw [anySuffixed, (ih (some ⟨.literal, text⟩) (some ⟨.literal, text ++ ['s']⟩) rfl).1, needsSuffix, hno]
          rfl
      · rename_i hs
        rw [anySuffixed, hrest.1, Bool.or_false, needsSuffix_congr hb (codeOf_head?_withSuffixes _ _)]
        exact Bool.eq_false_iff.mpr hs
    · obtain ⟨kind, code⟩ := seg
      cases kind with
      | code =>
        have hletter : endsInAutoInit (codeOf (some ⟨.code, 's' :: code⟩)) = endsInAutoInit (codeOf (some ⟨.code, code⟩)) :=
          endsInAutoInit_letter hgoes
        rw [withSuffixes_code]
        exact (ih _ _ hletter).1
      | literal => exact absurd rfl hgoes.ne_nil
      | comment => exact absurd rfl hgoes.ne_nil

/-! ## 5. Taking the suffixes away -/

/-- Which segments have a suffix. -/
def suffixMarks (before : Option Segment) : List Segment → List Bool
  | [] => []
  | seg :: rest => needsSuffix before seg rest.head? :: suffixMarks (some seg) rest

/-- The text of segments without the letter that stands right behind those that are marked. -/
def withoutSuffixes : List Bool → List Segment → Text
  | mark :: marks, seg :: rest =>
    seg.text ++ if mark then stripStart "s" (withoutSuffixes marks rest) else withoutSuffixes marks rest
  | _, _ => []

theorem length_suffixed (before : Option Segment) (segs : List Segment) :
    (texts segs).length + (anySuffixed before segs).toNat ≤ (suffixed before segs).length := by
  induction segs generalizing before with
  | nil => exact Nat.le_refl _
  | cons seg segs ih =>
    have hrest := ih (some seg)
    have htexts : texts (seg :: segs) = seg.text ++ texts segs := rfl
    rw [htexts, suffixed, anySuffixed, length_append, length_append, length_append]
    cases needsSuffix before seg segs.head? with
    | false =>
      rw [Bool.false_or, if_neg Bool.false_ne_true, length_nil]
      omega
    | true =>
      rw [Bool.true_or, if_pos rfl, length_singleton, Bool.toNat_true]
      omega

/-- Behind closed literals the suffixes can be told apart. -/
theorem withoutSuffixes_withSuffixes (before : Option Segment) (segs : List Segment)
    (h : ∀ seg ∈ segs, seg.kind = .literal → seg.isClosed = true) :
    (withSuffixes before segs).filter (·.kind != .code) = segs.filter (·.kind != .code) ∧
      withoutSuffixes (suffixMarks before segs) (withSuffixes before segs) = texts segs := by
  induction segs generalizing before with
  | nil => exact ⟨rfl, rfl⟩
  | cons seg segs ih =>
    obtain ⟨hkept, htext⟩ := ih (some seg) (forall_mem_cons.mp h).2
    have htexts : texts (seg :: segs) = seg.text ++ texts segs := rfl
    rw [withSuffixes, suffixMarks, htexts]
    split
    · rename_i hs
      obtain ⟨hstring, code, hnext, hgoes⟩ := goesOn_of_needsSuffix hs
      obtain ⟨rest, rfl⟩ := head?_eq_some_iff.mp hnext
      rw [if_pos (h seg mem_cons_self (kind_of_isString hstring)), hs, withoutSuffixes, if_pos rfl]
      rw [withSuffixes_code] at hkept htext ⊢
      generalize withSuffixes (some ⟨.code, code⟩) rest = below at hkept htext ⊢
      have hkept' : (onCode 's' (⟨.code, code⟩ :: below)).filter (·.kind != .code)
          = (⟨.code, code⟩ :: rest).filter (·.kind != .code) := hkept
      have hletter : withoutSuffixes (suffixMarks (some seg) (⟨.code, code⟩ :: rest)) (onCode 's' (⟨.code, code⟩ :: below))
          = "s" ++ texts (⟨.code, code⟩ :: rest) := congrArg ('s' :: ·) htext
      rw [filter_cons, filter_cons, hkept', hletter, stripStart_append]
      exact ⟨rfl, rfl⟩
    · rename_i hs
      rw [Bool.eq_false_iff.mpr hs, withoutSuffixes, if_neg Bool.false_ne_true, htext, filter_cons, filter_cons, hkept]
      exact ⟨rfl, rfl⟩

end Segment

open Segment

/-- **The suffixes of strings are stable.** A second pass changes nothing; the pass reports suffixes exactly
    if it changes the text; and if every literal is closed, what is no code stays as it was, and
    taking the letters away gives the text back. -/
theorem suffixStrings_stable (s : Text) :
    (suffixStrings (suffixStrings s).1).1 = (suffixStrings s).1 ∧
      ((suffixStrings s).2 = true ↔ (suffixStrings s).1 ≠ s) ∧
      ((∀ seg ∈ segments s, seg.kind = .literal → seg.isClosed = true) →
        (segments (suffixStrings s).1).filter (·.kind != .code) = (segments s).filter (·.kind != .code) ∧
          withoutSuffixes (suffixMarks none (segments s)) (segments (suffixStrings s).1) = s) := by
  have hcut := (cut_scan none s).withSuffixes rfl none
  have hsegments : segments (suffixStrings s).1 = withSuffixes none (segments s) := hcut.eq_scan
  have htexts : texts (segments s) = s := texts_segments s
  refine ⟨?_, ⟨fun hany he => ?_, fun hne => ?_⟩, fun hclosed => ?_⟩
  · unfold suffixStrings at hsegments ⊢
    rw [hsegments, suffixed_eq (anySuffixed_withSuffixes none none (segments s) rfl).1]
    exact hcut.texts_eq
  · have hlen := length_suffixed none (segments s)
    rw [htexts, show anySuffixed none (segments s) = true from hany, Bool.toNat_true] at hlen
    rw [show suffixed none (segments s) = s from he] at hlen
    omega
  · refine Bool.not_eq_false _ ▸ fun hnone => hne ?_
    exact (suffixed_eq hnone).trans htexts
  · have h := withoutSuffixes_withSuffixes none (segments s) hclosed
    rwa [← hsegments, htexts] at h

theorem suffixStrings_stable_operand : ∃ out : Text,
    suffixStrings "auto a = \"x\";f(\"b\" +R\"(c)\");" = (out, true) ∧
      out = "auto a = \"x\"s;f(\"b\"s +R\"(c)\");" ∧ (suffixStrings out).1 = out ∧
      withoutSuffixes (suffixMarks none (segments "auto a = \"x\";f(\"b\" +R\"(c)\");")) (segments out)
        = ("auto a = \"x\";f(\"b\" +R\"(c)\");" : Text) := by
  have hsegments : segments "auto a = \"x\";f(\"b\" +R\"(c)\");" = [⟨.code, "auto a = "⟩, ⟨.literal, "\"x\""⟩,
      ⟨.code, ";f("⟩, ⟨.literal, "\"b\""⟩, ⟨.code, " +"⟩, ⟨.literal, "R\"(c)\""⟩, ⟨.code, ");"⟩] := by decide +kernel
  obtain ⟨hstable, _, hclosed⟩ := suffixStrings_stable "auto a = \"x\";f(\"b\" +R\"(c)\");"
  have hback := (hclosed (by rw [hsegments]; decide)).2
  have hout : suffixStrings "auto a = \"x\";f(\"b\" +R\"(c)\");"
      = ("auto a = \"x\"s;f(\"b\"s +R\"(c)\");".toList, true) := by
    rw [suffixStrings, hsegments]
    decide
  rw [hout] at hstable hback
  exact ⟨_, hout, rfl, hstable, hback⟩

end Linewise
