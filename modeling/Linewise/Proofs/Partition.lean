/-
  The segments of a text partition it, and a cursor that moves over bytes finds them.
-/
import Linewise.Proofs.Bytes
import Linewise.Proofs.Segments

namespace Linewise

open Text List Utf8

variable {b : Option Char} {s code rest : Text} {segs : List Segment} {c : Char} {j n : Nat} {k : SegmentKind}

/-! ## 1. Offsets -/

namespace Utf8

theorem splitAt?_size (a r : Text) : splitAt? (size a) (a ++ r) = some (a, r) := by
  have hoff : offset (a ++ r) a.length = size a := by rw [offset, take_left]
  rw [← hoff, splitAt?_offset, take_left, drop_left]

theorem slice?_size (a m r : Text) : slice? (a ++ (m ++ r)) (size a) (size (a ++ m)) = some m := by
  rw [slice?, if_pos (by rw [size_append]; omega), ← append_assoc, splitAt?_size, Option.bind_some,
    splitAt?_size]
  rfl

theorem splitAt?_inside (a : Text) (hpos : 0 < j) (hlt : j < c.utf8Size) (r : Text) :
    splitAt? (size a + j) (a ++ c :: r) = none := by
  induction a with
  | nil =>
    obtain ⟨j, rfl⟩ : ∃ n, j = n + 1 := ⟨j - 1, by omega⟩
    rw [size, Nat.zero_add, nil_append, splitAt?, if_neg (by omega)]
  | cons d a ih =>
    have hd := d.utf8Size_pos
    obtain ⟨n, hn⟩ : ∃ n, size (d :: a) + j = n + 1 := ⟨size (d :: a) + j - 1, by omega⟩
    have hsize : size (d :: a) = d.utf8Size + size a := rfl
    have hrest : n + 1 - d.utf8Size = size a + j := by omega
    rw [hn, cons_append, splitAt?, if_pos (by omega), hrest, ih]
    rfl

theorem size_pos (h : s ≠ []) : 0 < size s := by
  obtain ⟨c, r, rfl⟩ := exists_cons_of_ne_nil h
  exact Nat.lt_of_lt_of_le c.utf8Size_pos (Nat.le_add_right _ _)

end Utf8

/-! ## 2. Literals and comments, byte by byte -/

namespace Utf8

/-- The bytes of a text. -/
def encode (s : Text) : List UInt8 := s.flatMap String.utf8EncodeChar

theorem utf8EncodeChar_cases (c : Char) :
    (c.toNat < 128 ∧ String.utf8EncodeChar c = [UInt8.ofNat c.toNat])
      ∨ (128 ≤ c.toNat ∧ ∀ b ∈ String.utf8EncodeChar c, 128 ≤ b.toNat) := by
  have hv : c.toNat = c.val.toNat := rfl
  by_cases h1 : c.val.toNat ≤ 127
  · refine .inl ⟨by omega, ?_⟩
    unfold String.utf8EncodeChar
    simp only [if_pos h1]
    rfl
  · refine .inr ⟨by omega, ?_⟩
    intro b hb
    unfold String.utf8EncodeChar at hb
    simp only [if_neg h1] at hb
    split at hb
    · simp only [mem_cons, not_mem_nil, or_false] at hb
      rcases hb with rfl | rfl <;> rw [UInt8.toNat_ofNat'] <;> omega
    · split at hb
      · simp only [mem_cons, not_mem_nil, or_false] at hb
        rcases hb with rfl | rfl | rfl <;> rw [UInt8.toNat_ofNat'] <;> omega
      · simp only [mem_cons, not_mem_nil, or_false] at hb
        rcases hb with rfl | rfl | rfl | rfl <;> rw [UInt8.toNat_ofNat'] <;> omega

end Utf8

namespace Segment

/-- How many bytes a quoted literal takes behind its quote: a backslash takes the next byte
    (`skip`), and a newline ends it. -/
def quotedBytes (quote : UInt8) : Bool → List UInt8 → Nat
  | _, [] => 0
  | true, _ :: r => quotedBytes quote false r + 1
  | false, b :: r =>
    if b = 0x5C then quotedBytes quote true r + 1
    else if b = 0x0A then 0
    else if b = quote then 1
    else quotedBytes quote false r + 1

theorem quotedBytes_high {quote : UInt8} (hq : quote.toNat < 128) {bs : List UInt8}
    (h : ∀ b ∈ bs, 128 ≤ b.toNat) (r : List UInt8) :
    quotedBytes quote false (bs ++ r) = bs.length + quotedBytes quote false r := by
  induction bs with
  | nil => exact (Nat.zero_add _).symm
  | cons b bs ih =>
    have hb := h b mem_cons_self
    have hne : b ≠ 0x5C ∧ b ≠ 0x0A ∧ b ≠ quote := by
      refine ⟨?_, ?_, ?_⟩ <;> rintro rfl
      · exact absurd hb (by decide)
      · exact absurd hb (by decide)
      · omega
    rw [cons_append, quotedBytes, if_neg hne.1, if_neg hne.2.1, if_neg hne.2.2,
      ih (forall_mem_cons.mp h).2, length_cons]
    omega

theorem quotedBytes_escaped {quote : UInt8} (hq : quote.toNat < 128) (c : Char) (r : List UInt8) :
    quotedBytes quote true (String.utf8EncodeChar c ++ r) = c.utf8Size + quotedBytes quote false r := by
  rw [← String.length_utf8EncodeChar]
  rcases utf8EncodeChar_cases c with ⟨_, hc⟩ | ⟨_, hc⟩
  · rw [hc]
    show quotedBytes quote false r + 1 = 1 + quotedBytes quote false r
    omega
  · cases hbytes : String.utf8EncodeChar c with
    | nil =>
      have hlen := String.length_utf8EncodeChar c
      rw [hbytes] at hlen
      exact absurd hlen (Nat.ne_of_lt c.utf8Size_pos)
    | cons b bs =>
      rw [hbytes] at hc
      show quotedBytes quote false (bs ++ r) + 1 = _
      rw [quotedBytes_high hq (forall_mem_cons.mp hc).2, length_cons]
      omega

/-- By bytes a literal ends where it ends by characters. -/
theorem quotedBytes_encode {quote : Char} (hq : quote = '"' ∨ quote = '\'') (s : Text) :
    quotedBytes (UInt8.ofNat quote.toNat) false (Utf8.encode s)
      = Utf8.offset s (quotedLength quote s) := by
  have hlt : (UInt8.ofNat quote.toNat).toNat < 128 := by rcases hq with rfl | rfl <;> decide
  fun_induction quotedLength quote s with
  | case1 => rfl
  | case2 c r ih =>
    have hbytes : Utf8.encode ('\\' :: c :: r) = 0x5C :: (String.utf8EncodeChar c ++ Utf8.encode r) := rfl
    rw [hbytes, quotedBytes, if_pos rfl, quotedBytes_escaped hlt, ih]
    show _ = Utf8.size ('\\' :: c :: r.take (quotedLength quote r))
    simp only [Utf8.size, Utf8.offset]
    have : ('\\' : Char).utf8Size = 1 := rfl
    omega
  | case3 r => rfl
  | case4 c r _ _ hc =>
    rw [beq_iff_eq.mp hc]
    rcases hq with rfl | rfl <;> rfl
  | case5 c r hslash hline hc ih =>
    have hoff : Utf8.offset (c :: r) (quotedLength quote r + 1)
        = c.utf8Size + Utf8.offset r (quotedLength quote r) := rfl
    have hbytes : Utf8.encode (c :: r) = String.utf8EncodeChar c ++ Utf8.encode r := rfl
    rw [hoff, ← ih, hbytes]
    rcases Utf8.utf8EncodeChar_cases c with ⟨hascii, hc1⟩ | ⟨_, hhigh⟩
    · rw [hc1, utf8Size_of_lt hascii, singleton_append]
      by_cases hback : c = '\\'
      · -- a backslash at the very end has nothing to take with it
        have hr : r = [] := by
          cases r with
          | nil => rfl
          | cons d r => exact (hslash d r hback rfl).elim
        rw [hback, hr]
        rfl
      · have hne : ∀ d : Char, d.toNat < 128 → c ≠ d → UInt8.ofNat c.toNat ≠ UInt8.ofNat d.toNat := by
          intro d hd hcd he
          have hnat := congrArg UInt8.toNat he
          rw [UInt8.toNat_ofNat', UInt8.toNat_ofNat', Nat.mod_eq_of_lt (by omega),
            Nat.mod_eq_of_lt (by omega)] at hnat
          exact hcd (Char.ext (UInt32.toNat_inj.mp hnat))
        have hquote : quote.toNat < 128 := by rcases hq with rfl | rfl <;> decide
        have h1 : UInt8.ofNat c.toNat ≠ 0x5C := hne '\\' (by decide) hback
        have h2 : UInt8.ofNat c.toNat ≠ 0x0A := hne '\n' (by decide) hline
        have h3 := hne quote hquote (by simpa using hc)
        rw [quotedBytes, if_neg h1, if_neg h2, if_neg h3]
        omega
    · rw [quotedBytes_high hlt hhigh, String.length_utf8EncodeChar]

/-- The bytes through the text that closes what a mark opens, or to the end; nothing if the cut
    behind the mark is no place between characters. -/
def bytesThrough? (mark closing s : Text) : Option Nat :=
  (slice? s (size mark) (size s)).map fun rest =>
    match indexOf? closing rest with
    | some p => size mark + offset rest p + size closing
    | none => size s

/-- How many bytes a literal or comment takes, found by searches in bytes. -/
def byteLength? (s : Text) : Option Nat :=
  if startsWith s "//" then
    some (match s.idxOf? '\n' with
      | some p => offset s p
      | none => size s)
  else if startsWith s "/*" then bytesThrough? "/*" "*/" s
  else if startsWith s "R\"(" then bytesThrough? "R\"(" ")\"" s
  else
    match s with
    | [] => some 0
    | quote :: r => some (quotedBytes (UInt8.ofNat quote.toNat) false (encode r) + 1)

theorem offset_lineLength (s : Text) :
    (match s.idxOf? '\n' with
      | some p => offset s p
      | none => size s) = offset s (lineLength s) := by
  induction s with
  | nil => rfl
  | cons c r ih =>
    rw [idxOf?_cons]
    unfold lineLength
    by_cases hc : c = '\n'
    · rw [hc]
      rfl
    · have hlen : ((c :: r).takeWhile (· != '\n')).length = (r.takeWhile (· != '\n')).length + 1 := by
        rw [takeWhile_cons_of_pos (by simpa using hc), length_cons]
      have hoff : offset (c :: r) (lineLength r + 1) = c.utf8Size + offset r (lineLength r) := rfl
      rw [hlen, if_neg (by simpa using hc)]
      show _ = offset (c :: r) (lineLength r + 1)
      rw [hoff, ← ih]
      cases r.idxOf? '\n' <;> rfl

theorem bytesThrough?_eq (mark closing r : Text) :
    bytesThrough? mark closing (mark ++ r) = some (offset (mark ++ r) (mark.length + lengthThrough closing r)) := by
  have hmark : offset (mark ++ r) mark.length = size mark := by rw [offset, take_left]
  have hcut := slice?_drop (s := mark ++ r) (i := mark.length) (by rw [length_append]; exact Nat.le_add_right _ _)
  rw [hmark, drop_left] at hcut
  unfold bytesThrough? lengthThrough
  rw [hcut, Option.map_some, offset_add, hmark, drop_left]
  cases hp : indexOf? closing r with
  | some p =>
    dsimp only
    rw [offset_add_size (startsWith_of_indexOf? hp).1, Nat.add_assoc]
  | none =>
    rw [offset_length, size_append]

theorem byteLength?_quoted {quote : Char} (hq : quote = '"' ∨ quote = '\'') (r : Text) :
    byteLength? (quote :: r) = some (offset (quote :: r) (quotedLength quote r + 1)) := by
  have hno : ¬ startsWith (quote :: r) "//" = true ∧ ¬ startsWith (quote :: r) "/*" = true
      ∧ ¬ startsWith (quote :: r) "R\"(" = true := by
    rcases hq with rfl | rfl <;> exact ⟨Bool.false_ne_true, Bool.false_ne_true, Bool.false_ne_true⟩
  have hone : quote.utf8Size = 1 := by rcases hq with rfl | rfl <;> rfl
  have hoff : offset (quote :: r) (quotedLength quote r + 1)
      = quote.utf8Size + offset r (quotedLength quote r) := rfl
  unfold byteLength?
  rw [if_neg hno.1, if_neg hno.2.1, if_neg hno.2.2, hoff, hone, ← quotedBytes_encode hq, Nat.add_comm]

theorem byteLength?_eq {before : Option Char} {kind : SegmentKind} (h : opening? before s = some (kind, n)) :
    byteLength? s = some (offset s (n + 1)) := by
  cases s with
  | nil => cases h
  | cons c r =>
    rcases opening?_cases h with ⟨r', rfl, rfl, _, rfl⟩ | ⟨r', rfl, rfl, _, rfl⟩ | ⟨r', rfl, rfl, _, _, rfl⟩
      | ⟨hq, _, rfl⟩
    · exact congrArg some (offset_lineLength _)
    · have hblock := bytesThrough?_eq "/*" "*/" r'
      rwa [Nat.add_comm] at hblock
    · have hraw := bytesThrough?_eq "R\"(" ")\"" r'
      rwa [Nat.add_comm] at hraw
    · exact byteLength?_quoted hq r

/-! ## 3. A cursor over bytes -/

theorem byteLength?_pos (h : opening? b s = some (k, n)) (hj : byteLength? s = some j) : 0 < j := by
  cases s with
  | nil => cases h
  | cons c r =>
    rw [byteLength?_eq h] at hj
    cases hj
    exact size_pos (cons_ne_nil _ _)

/-- The code between two offsets, if there is any. -/
def codeBetween? (s : Text) (start stop : Nat) : Option (List Segment) :=
  if start < stop then (slice? s start stop).map fun text => [⟨.code, text⟩] else some []

/-- The segments from `start` on, for a cursor that has come to `i` through code; nothing if a cut
    is no place between characters. -/
def cursor? (s : Text) (start i : Nat) : Option (List Segment) :=
  if i < size s then
    match splitAt? i s with
    | none => cursor? s start (i + 1)
    | some (before, after) =>
      match h : opening? before.getLast? after with
      | none => cursor? s start (i + 1)
      | some (kind, _) =>
        match _ : byteLength? after with
        | none => none
        | some length => do
          let code ← codeBetween? s start i
          let text ← slice? s i (i + length)
          let rest ← cursor? s (i + length) (i + length)
          return code ++ ⟨kind, text⟩ :: rest
  else codeBetween? s start (size s)
termination_by size s - i
decreasing_by
  · omega
  · omega
  · have := byteLength?_pos h ‹_›
    omega

section Cursor

variable {start i : Nat} {before after : Text}

theorem cursor?_inside (hi : i < size s) (h : splitAt? i s = none) :
    cursor? s start i = cursor? s start (i + 1) := by
  rw [cursor?, if_pos hi, h]

theorem cursor?_code (hi : i < size s) (h : splitAt? i s = some (before, after))
    (hopen : opening? before.getLast? after = none) : cursor? s start i = cursor? s start (i + 1) := by
  rw [cursor?, if_pos hi, h]
  dsimp only
  split
  · rfl
  · rename_i hsome
    rw [hopen] at hsome
    cases hsome

theorem cursor?_mark {text : Text} {codes : List Segment} (hi : i < size s)
    (h : splitAt? i s = some (before, after)) (hopen : opening? before.getLast? after = some (k, n))
    (hlength : byteLength? after = some j) (hcode : codeBetween? s start i = some codes)
    (htext : slice? s i (i + j) = some text) (hrest : cursor? s (i + j) (i + j) = some segs) :
    cursor? s start i = some (codes ++ ⟨k, text⟩ :: segs) := by
  rw [cursor?, if_pos hi, h]
  dsimp only
  split
  · rename_i hnone
    rw [hopen] at hnone
    cases hnone
  · rename_i hsome
    rw [hopen] at hsome
    cases hsome
    split
    · rename_i hnone
      rw [hlength] at hnone
      cases hnone
    · rename_i hsome
      rw [hlength] at hsome
      cases hsome
      rw [hcode, htext, hrest]
      rfl

end Cursor

theorem cursor?_char (a : Text) (c : Char) (r : Text) (start : Nat) (hpos : 0 < j) (hle : j ≤ c.utf8Size) :
    cursor? (a ++ c :: r) start (size a + j) = cursor? (a ++ c :: r) start (size (a ++ [c])) := by
  have hsize : size (a ++ [c]) = size a + c.utf8Size := by rw [size_append]; rfl
  induction hn : c.utf8Size - j generalizing j with
  | zero => rw [hsize, show j = c.utf8Size by omega]
  | succ n ih =>
    have hi : size a + j < size (a ++ c :: r) := by
      rw [size_append, show size (c :: r) = c.utf8Size + size r from rfl]
      omega
    rw [cursor?_inside hi (splitAt?_inside a hpos (by omega) r)]
    exact ih (Nat.succ_pos j) (by omega) (by omega)

theorem codeBetween?_size (a m r : Text) :
    codeBetween? (a ++ (m ++ r)) (size a) (size (a ++ m)) = some (if m = [] then [] else [⟨.code, m⟩]) := by
  unfold codeBetween?
  by_cases hm : m = []
  · rw [hm, append_nil, if_neg (Nat.lt_irrefl _), if_pos rfl]
  · have hpos := size_pos hm
    rw [if_pos (by rw [size_append]; omega), slice?_size, if_neg hm]
    rfl

theorem foldr_onCode_eq (h : ∀ seg ∈ segs.head?, seg.kind ≠ .code) :
    code.foldr onCode segs = (if code = [] then [] else [⟨.code, code⟩]) ++ segs := by
  split
  · rename_i hnil
    rw [hnil]
    rfl
  · rename_i hne
    exact foldr_onCode hne h

/-- The cursor finds the segments. -/
theorem cursor?_eq (done code : Text) (h : IsCode done.getLast? code rest) :
    cursor? (done ++ (code ++ rest)) (size done) (size (done ++ code))
      = some (scan done.getLast? (code ++ rest)) := by
  induction hlen : rest.length using Nat.strongRecOn generalizing done code rest with
  | _ len ih =>
  cases rest with
  | nil =>
    have hend : ∀ seg ∈ ([] : List Segment).head?, seg.kind ≠ .code := nofun
    have hcode := codeBetween?_size done code []
    rw [append_nil] at hcode
    rw [scan_code h, scan, foldr_onCode_eq hend, append_nil, append_nil, ← hcode, cursor?,
      if_neg (Nat.lt_irrefl _)]
  | cons c r =>
    have hi : size (done ++ code) < size (done ++ (code ++ c :: r)) := by
      have := size_pos (cons_ne_nil c r)
      rw [← append_assoc, size_append _ (c :: r)]
      omega
    have hsplit : splitAt? (size (done ++ code)) (done ++ (code ++ c :: r)) = some (done ++ code, c :: r) := by
      rw [← append_assoc]
      exact splitAt?_size _ _
    have hlast : (done ++ code).getLast? = code.getLast?.or done.getLast? := getLast?_append
    cases hopen : opening? (code.getLast?.or done.getLast?) (c :: r) with
    | none =>
      have hnext := ih r.length (by rw [← hlen]; exact Nat.lt_succ_self _) done (code ++ [c])
        (isCode_append.mpr ⟨h, hopen, trivial⟩) rfl
      rw [cursor?_code hi hsplit (hlast ▸ hopen), ← append_assoc,
        cursor?_char (done ++ code) c r _ Nat.one_pos c.utf8Size_pos]
      rwa [append_assoc code, ← append_assoc done, ← append_assoc done] at hnext
    | some p =>
      obtain ⟨k, n⟩ := p
      have htext : done ++ (code ++ c :: r) = done ++ code ++ (c :: r.take n ++ r.drop n) := by
        rw [cons_append, take_append_drop, append_assoc]
      have hstop : size (done ++ code) + offset (c :: r) (n + 1) = size (done ++ code ++ c :: r.take n) := by
        rw [size_append _ (c :: r.take n)]
        rfl
      have hbehind : (done ++ code ++ c :: r.take n).getLast? = some ((r.take n).getLast?.getD c) := by
        rw [getLast?_append, getLast?_cons]
        rfl
      have hnext := ih (r.drop n).length (by rw [← hlen, length_drop, length_cons]; omega)
        (done ++ code ++ c :: r.take n) [] trivial rfl
      rw [append_nil, nil_append, hbehind, append_assoc (done ++ code), ← htext, ← hstop] at hnext
      have hhead : ∀ seg ∈ (⟨k, c :: r.take n⟩ :: scan (some ((r.take n).getLast?.getD c)) (r.drop n)).head?,
          seg.kind ≠ .code := by
        intro seg hseg
        cases hseg
        exact kind_of_opening? hopen
      rw [scan_code h, scan, hopen, foldr_onCode_eq hhead]
      refine cursor?_mark hi hsplit (hlast ▸ hopen) (byteLength?_eq hopen) (codeBetween?_size done code _) ?_ hnext
      rw [hstop, htext]
      exact slice?_size _ _ _

/-! ## 4. Code -/

theorem IsCode.infix_free (h : IsCode b code rest) :
    ∀ mark ∈ (["\"", "'", "//", "/*"] : List String), ¬ mark.toList <:+: code := by
  rintro mark hmark ⟨u, v, rfl⟩
  simp only [mem_cons, not_mem_nil, or_false] at hmark
  rw [append_assoc] at h
  rcases hmark with rfl | rfl | rfl | rfl <;> exact Option.some_ne_none _ (isCode_append.mp h).2.1

theorem Cut.apart (h : Cut b s segs) {x y : Segment} (hxy : [x, y] <:+: segs) : x.kind ≠ .code ∨ y.kind ≠ .code := by
  induction h with
  | nil => exact absurd (infix_nil.mp hxy) (cons_ne_nil _ _)
  | code _ _ hstop hrest ih =>
    rcases infix_cons_iff.mp hxy with ⟨t, ht⟩ | hxy
    · obtain ⟨_, rfl⟩ := cons.inj ht
      exact .inr (hrest.head_ne_code hstop y rfl)
    · exact ih hxy
  | mark hopen _ ih =>
    rcases infix_cons_iff.mp hxy with ⟨t, ht⟩ | hxy
    · obtain ⟨rfl, _⟩ := cons.inj ht
      exact .inl (kind_of_opening? hopen)
    · exact ih hxy

theorem Cut.mem (h : Cut b s segs) : ∀ seg ∈ segs, seg.text ≠ [] ∧
    (seg.kind = .code → ∀ mark ∈ (["\"", "'", "//", "/*"] : List String), ¬ mark.toList <:+: seg.text) := by
  induction h with
  | nil => exact nofun
  | code hne hcode _ _ ih =>
    intro seg hseg
    rcases mem_cons.mp hseg with rfl | hseg
    · exact ⟨hne, fun _ => hcode.infix_free⟩
    · exact ih seg hseg
  | mark hopen _ ih =>
    intro seg hseg
    rcases mem_cons.mp hseg with rfl | hseg
    · exact ⟨cons_ne_nil _ _, fun hk => absurd hk (kind_of_opening? hopen)⟩
    · exact ih seg hseg

end Segment

/-- **The segments of a text partition it.** A cursor over its bytes finds them and never cuts inside a
    character; put together they are the text, and none is empty; no code stands beside code, and
    code holds no quote and no start of a comment. So a pass that changes no code changes nothing. -/
theorem segments_partition (s : Text) :
    Segment.cursor? s 0 0 = some (segments s) ∧
      ((segments s).map Segment.text).flatten = s ∧
      (∀ seg ∈ segments s, seg.text ≠ []) ∧
      (∀ x y, [x, y] <:+: segments s → x.kind ≠ .code ∨ y.kind ≠ .code) ∧
      (∀ seg ∈ segments s, seg.kind = .code →
        ∀ mark ∈ (["\"", "'", "//", "/*"] : List String), ¬ mark.toList <:+: seg.text) ∧
      mapCode id s = s := by
  have hcut := Segment.cut_scan none s
  have htexts : ((segments s).map Segment.text).flatten = s := hcut.texts_eq
  have hmap : mapCode id s = ((segments s).map Segment.text).flatten := by
    unfold mapCode
    simp only [id_eq, ite_self]
  exact ⟨Segment.cursor?_eq [] [] trivial, htexts, fun seg hseg => (hcut.mem seg hseg).1, fun _ _ => hcut.apart,
    fun seg hseg => (hcut.mem seg hseg).2, hmap.trans htexts⟩

end Linewise
