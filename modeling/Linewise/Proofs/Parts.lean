/-
  Texts put together from parts, brackets and lists: the scans find what was put in.
-/
import Linewise.Proofs.Lines

namespace Linewise

open Text List Lexer

variable {a b p part s sep : Text} {parts : List Text} {c k o needle : Char}

/-! ## 1. Where two texts meet -/

theorem topIndex?_join (ha : IsPart needle a) (h : Joins a b) :
    topIndex? needle (a ++ b) = (topIndex? needle b).map (· + a.length) := by
  have hwhole := ha.whole
  unfold topIndex? at hwhole ⊢
  rw [topIndexFrom?_append, hwhole, Option.none_or, ha.wellNested.level_eq,
    (ha.wellNested.anew h).topIndexFrom?_eq]
  rfl

theorem IsPart.join (ha : IsPart needle a) (hb : IsPart needle b) (h : Joins a b) : IsPart needle (a ++ b) := by
  refine ⟨ha.wellNested.join hb.wellNested h, ?_⟩
  rw [topIndex?_join ha h, hb.whole]
  rfl

theorem joins_of_head (hc : c ≠ '"') (a b : Text) : Joins a (c :: b) :=
  .inr (by simpa using hc)

/-! ## 2. Brackets -/

theorem isPart_bare (h : Bare s) (hn : needle ∉ s) : IsPart needle s := by
  refine ⟨h.wellNested, ?_⟩
  cases hi : topIndex? needle s with
  | none => rfl
  | some i =>
    obtain ⟨a, b, rfl, _⟩ := eq_append_of_topIndexFrom? hi
    exact absurd (by simp) hn

theorem exists_of_concat_eq (h : s ++ [k] = a ++ c :: b) : ∃ t, s = a ++ t := by
  rcases eq_nil_or_concat' (c :: b) with hnil | ⟨t, d, hcat⟩
  · cases hnil
  · rw [hcat, ← append_assoc] at h
    exact ⟨t, (append_inj' h rfl).1⟩

theorem IsPart.bracketed (hk : closer? o = some k) (hne : o ≠ needle) (h : WellNested s) :
    IsPart needle (o :: (s ++ [k])) := by
  refine ⟨h.bracketed hk, ?_⟩
  cases hi : topIndex? needle (o :: (s ++ [k])) with
  | none => rfl
  | some i =>
    obtain ⟨a, b, he, _, _, hlevel⟩ := eq_append_of_topIndexFrom? hi
    cases a with
    | nil => exact absurd (cons.inj he).1 hne
    | cons c a =>
      obtain ⟨rfl, hs⟩ := cons.inj he
      obtain ⟨t, rfl⟩ := exists_of_concat_eq hs
      -- a head of what stands inside closes no more than it opens
      have hinside := ((fresh_opened hk).anew.unclosed?_eq []).trans h.brackets
      rw [unclosed?_append] at hinside
      obtain ⟨p, hp, _⟩ := Option.bind_eq_some_iff.mp hinside
      have hlen := length_unclosed? hp
      have hnest : Lexer.start.nesting o = 1 := by
        rw [Lexer.nesting, if_pos (isCode_of_closer? hk), nesting_of_closer? hk]
      rw [level, hnest] at hlevel
      simp only [length_nil] at hlen
      omega

theorem matching?_bracketed (hk : closer? o = some k) (ha : WellNested a) :
    matching? (o :: (a ++ [k])) = some (a.length + 1) := by
  have hcode := isCode_of_closer? hk
  obtain ⟨a', b, he, hm, ha', hclose, _⟩ := matching?_eq hk hcode (ha.bracketed hk).brackets
  rcases eq_nil_or_concat' b with rfl | ⟨t, d, rfl⟩
  · rw [hm, (append_inj' he rfl).1]
  · -- otherwise the bracket inside `a` would close more than `a` opens
    rw [← cons_append, ← append_assoc] at he
    have hsplit : a = a' ++ k :: t := (append_inj' he rfl).1
    have hanew : (⟨.code, o⟩ : Lexer).Anew a' := (step_eq_of_isCode hcode ▸ fresh_opened hk).anew
    have hmode : (Lexer.start.run a').isCode k = true :=
      isCode_of_mode (hanew.run_mode.symm.trans (mode_of_isCode hclose)) (not_isQuote_of_closer? hk).2
    have hb := ha.brackets
    rw [hsplit, unclosed?_append, ← hanew.unclosed?_eq, ha', Option.bind_some, unclosed?,
      bracketStep_of_isCode hmode] at hb
    have hnone : bracketStep k [] = none := by
      rcases closer?_cases hk with ⟨_, rfl⟩ | ⟨_, rfl⟩ | ⟨_, rfl⟩ <;> rfl
    rw [hnone] at hb
    cases hb

theorem enclosed?_eq (hk : closer? o = some k) (ha : WellNested a) (b : Text) :
    enclosed? (o :: (a ++ k :: b)) = some (a, b) := by
  have hm := matching?_append (matching?_bracketed hk ha) b
  rw [cons_append, append_assoc, singleton_append] at hm
  rw [enclosed?, hm, Option.map_some, take_succ_cons, take_left, drop_one, tail_cons,
    drop_succ_cons, drop_length_add_append]
  rfl

/-! ## 3. Lists -/

/-- An element of a list: a part with no white space around it. -/
@[mk_iff] structure IsElement (s : Text) : Prop where
  part : IsPart ',' s
  solid : Solid s
  ne_nil : s ≠ []

theorem IsElement.trim_eq (h : IsElement s) : trim s = s := trim_eq_self_of_solid h.solid

theorem trim_space_of_solid (h : Solid s) : trim (' ' :: s) = s := by
  have hblank : Blank [' '] := isAllBlank_iff.mp rfl
  exact (trim_blank_append hblank s).trans (trim_eq_self_of_solid h)

theorem not_isAllBlank (h : Solid s) (hne : s ≠ []) : isAllBlank s = false := by
  obtain ⟨c, r, rfl⟩ := exists_cons_of_ne_nil hne
  refine Bool.eq_false_iff.mpr fun hb => ?_
  have hblank := isAllBlank_iff.mp hb c mem_cons_self
  rw [h.1 c rfl] at hblank
  cases hblank

theorem joinWith_cutsFrom (sep : Char) (s : Text) :
    ∀ (l : Lexer) (d : Int), joinWith [sep] (cutsFrom sep l d s) = s := by
  induction s with
  | nil =>
    intro l d
    rfl
  | cons c r ih =>
    intro l d
    unfold cutsFrom
    have hrest := ih (l.step c) (d + l.nesting c)
    cases hcuts : cutsFrom sep (l.step c) (d + l.nesting c) r with
    | nil => exact absurd hcuts (cutsFrom_ne_nil sep _ _ r)
    | cons q qs =>
      rw [hcuts] at hrest
      split
      · rename_i hsep
        simp only [Bool.and_eq_true, beq_iff_eq] at hsep
        rw [joinWith, intercalate_cons_cons, hsep.1.2]
        exact congrArg (sep :: ·) hrest
      · cases qs with
        | nil =>
          rw [← hrest]
          rfl
        | cons q' qs =>
          rw [← hrest]
          simp only [onHead, joinWith, intercalate_cons_cons, cons_append]

theorem infix_of_mem_splitTop {sep : Char} (h : p ∈ splitTop sep s) : p <:+: s := by
  unfold splitTop at h
  split at h
  · cases h
  · obtain ⟨cut, hcut, rfl⟩ := mem_map.mp h
    have hjoin := infix_joinWith [sep] hcut
    rw [joinWith_cutsFrom] at hjoin
    exact (infix_trim cut).trans hjoin

theorem eq_trim_of_splitTop {sep : Char} (h : splitTop sep s = [part]) : part = trim s := by
  unfold splitTop at h
  split at h
  · cases h
  · obtain ⟨cut, hcut, rfl⟩ := map_eq_singleton_iff.mp h
    have := joinWith_cutsFrom sep s Lexer.start 0
    rw [hcut, joinWith_singleton] at this
    rw [this]

theorem trim_of_mem_splitTop {sep : Char} (h : part ∈ splitTop sep s) : trim part = part := by
  unfold splitTop at h
  split at h
  · cases h
  · obtain ⟨cut, _, rfl⟩ := mem_map.mp h
    exact trim_trim cut

theorem joinWith_head (sep : Text) (c : Char) (p : Text) (ps : List Text) :
    joinWith sep ((c :: p) :: ps) = c :: joinWith sep (p :: ps) := by
  cases ps with
  | nil => rw [joinWith_singleton, joinWith_singleton]
  | cons q ps => rw [joinWith_cons_cons, joinWith_cons_cons, cons_append]

theorem joinWith_ne_nil (sep : Text) (h : p ≠ []) (ps : List Text) : joinWith sep (p :: ps) ≠ [] := by
  obtain ⟨c, r, rfl⟩ := exists_cons_of_ne_nil h
  rw [joinWith_head]
  exact cons_ne_nil _ _

theorem joinWith_spaced (sep : Char) (p : Text) (ps : List Text) :
    joinWith [sep, ' '] (p :: ps) = joinWith [sep] (p :: ps.map (' ' :: ·)) := by
  induction ps generalizing p with
  | nil => rw [map_nil, joinWith_singleton, joinWith_singleton]
  | cons q ps ih =>
    rw [map_cons, joinWith_cons_cons, joinWith_cons_cons, joinWith_head, ih]
    rfl

theorem getLast?_joinWith (h : ∀ p ∈ parts, p ≠ []) (hc : (joinWith sep parts).getLast? = some c) :
    ∃ p ∈ parts, p.getLast? = some c := by
  induction parts with
  | nil => cases hc
  | cons p ps ih =>
    cases ps with
    | nil => exact ⟨p, mem_cons_self, by rwa [joinWith_singleton] at hc⟩
    | cons q qs =>
      have hne := joinWith_ne_nil sep (h q (by simp)) qs
      rw [joinWith_cons_cons, ← append_assoc, getLast?_append_of_ne_nil _ hne] at hc
      obtain ⟨x, hx, hlast⟩ := ih (forall_mem_cons.mp h).2 hc
      exact ⟨x, mem_cons_of_mem p hx, hlast⟩

theorem solid_joinWith (hsolid : ∀ p ∈ parts, Solid p) (hne : ∀ p ∈ parts, p ≠ []) :
    Solid (joinWith sep parts) := by
  refine ⟨fun c hc => ?_, fun c hc => ?_⟩
  · cases parts with
    | nil => cases hc
    | cons p ps =>
      obtain ⟨d, r, rfl⟩ := exists_cons_of_ne_nil (hne p mem_cons_self)
      rw [joinWith_head] at hc
      exact (hsolid _ mem_cons_self).1 c hc
  · obtain ⟨p, hp, hlast⟩ := getLast?_joinWith hne hc
    exact (hsolid p hp).2 c hlast

theorem solid_list (h : ∀ p ∈ parts, IsElement p) : Solid (joinWith ", " parts) :=
  solid_joinWith (fun p hp => (h p hp).solid) fun p hp => (h p hp).ne_nil

theorem IsPart.getLast?_ne (hb : isBracket needle = false) (hq : isQuote needle = false)
    (h : IsPart needle s) : s.getLast? ≠ some needle := by
  intro hlast
  obtain ⟨r, rfl⟩ := getLast?_eq_some_iff.mp hlast
  have hmode := h.wellNested.literals
  rw [run_append] at hmode
  have hcode := isCode_of_mode (mode_of_step (quotes_start.run r) hq hmode) hq
  have hopen := h.wellNested.brackets
  rw [unclosed?_append] at hopen
  obtain ⟨p, hp, hopen⟩ := Option.bind_eq_some_iff.mp hopen
  rw [unclosed?, bracketStep_eq_self hb] at hopen
  obtain rfl : p = [] := Option.some.inj hopen
  have hlevel := length_unclosed? hp
  have hwhole := h.whole
  unfold topIndex? at hwhole
  have hzero : Lexer.start.level r = 0 := by simpa using hlevel.symm
  rw [topIndexFrom?_append, hzero] at hwhole
  simp [topIndexFrom?, hcode] at hwhole

theorem isPart_joined (hsep : IsPart needle sep) (hne : sep ≠ []) (hhead : sep.head? ≠ some '"')
    (hlast : sep.getLast? ≠ some 'R') (h : ∀ p ∈ parts, IsPart needle p) : IsPart needle (joinWith sep parts) := by
  induction parts with
  | nil => exact ⟨wellNested_nil, rfl⟩
  | cons p ps ih =>
    have hp := h p mem_cons_self
    cases ps with
    | nil => rwa [joinWith_singleton]
    | cons q ps =>
      have hrest := hsep.join (ih (forall_mem_cons.mp h).2) (.inl hlast)
      have hmeet : (sep ++ joinWith sep (q :: ps)).head? ≠ some '"' := by
        rwa [head?_append_of_ne_nil _ hne]
      rw [joinWith_cons_cons]
      exact hp.join hrest (.inr hmeet)

section Spaced

variable {sep : Char} (hbare : Bare [sep]) (hR : sep ≠ 'R') (hspace : sep ≠ ' ')

include hspace in
theorem isPart_space {q : Text} (h : IsPart sep q) : IsPart sep (' ' :: q) :=
  IsPart.join (a := [' ']) (isPart_bare (by decide) (by simpa using hspace)) h (.inl (by decide))

include hspace in
theorem forall_isPart_spaced {ps : List Text} (h : ∀ q ∈ p :: ps, IsPart sep q) :
    ∀ q ∈ p :: ps.map (' ' :: ·), IsPart sep q := by
  intro q hq
  rcases mem_cons.mp hq with rfl | hq
  · exact h q mem_cons_self
  · obtain ⟨t, ht, rfl⟩ := mem_map.mp hq
    exact isPart_space hspace (h t (mem_cons_of_mem p ht))

include hbare hR hspace in
theorem wellNested_spaced (h : ∀ p ∈ parts, IsPart sep p) : WellNested (joinWith [sep, ' '] parts) := by
  cases parts with
  | nil => exact wellNested_nil
  | cons p ps =>
    rw [joinWith_spaced]
    exact wellNested_joinWith hbare hR (forall_isPart_spaced hspace h)

include hbare hR hspace in
theorem splitTop_spaced (h : ∀ p ∈ parts, IsPart sep p) (hsolid : ∀ p ∈ parts, Solid p)
    (hne : ∀ p ∈ parts, p ≠ []) : splitTop sep (joinWith [sep, ' '] parts) = parts := by
  cases parts with
  | nil => rfl
  | cons p ps =>
    have hblank : isAllBlank (joinWith [sep] (p :: ps.map (' ' :: ·))) = false := by
      rw [← joinWith_spaced]
      exact not_isAllBlank (solid_joinWith hsolid hne) (joinWith_ne_nil _ (hne p mem_cons_self) ps)
    have htrim (q : Text) (hq : q ∈ ps) : trim (' ' :: q) = q :=
      trim_space_of_solid (hsolid q (mem_cons_of_mem p hq))
    rw [joinWith_spaced, splitTop_joinWith hbare hR (forall_isPart_spaced hspace h) hblank, map_cons,
      trim_eq_self_of_solid (hsolid p mem_cons_self), map_map]
    refine congrArg (p :: ·) ?_
    conv => rhs; rw [← map_id ps]
    exact map_congr_left htrim

end Spaced

theorem wellNested_list (h : ∀ p ∈ parts, IsPart ',' p) : WellNested (joinWith ", " parts) :=
  wellNested_spaced (by decide) (by decide) (by decide) h

theorem splitTop_list (h : ∀ p ∈ parts, IsElement p) :
    splitTop ',' (joinWith ", " parts) = parts :=
  splitTop_spaced (by decide) (by decide) (by decide) (fun p hp => (h p hp).part) (fun p hp => (h p hp).solid)
    fun p hp => (h p hp).ne_nil

theorem isElement_pair (hsep : IsPart ',' sep) (hne : sep ≠ []) (hhead : sep.head? ≠ some '"')
    (hlast : sep.getLast? ≠ some 'R') (ha : IsElement a) (hb : IsElement b) : IsElement (a ++ (sep ++ b)) where
  part := by
    rw [← append_assoc]
    refine (ha.part.join hsep (.inr hhead)).join hb.part (.inl ?_)
    rwa [getLast?_append_of_ne_nil _ hne]
  solid := solid_around ha.solid ha.ne_nil hb.solid hb.ne_nil sep
  ne_nil := append_ne_nil_of_left_ne_nil ha.ne_nil _

end Linewise
