/-
  A finished program defines the helpers it mentions and includes the headers it needs.
-/
import Linewise.Program.Finish
import Linewise.Proofs.Preamble

namespace Linewise

open Text Segment List

variable {e n s name : Text} {h : Helper} {full : Bool} {hs : List Helper} {c : Char} {names : List Text}
  {before : Option Segment} {segs : List Segment}

/-! ## 1. The bodies of the helpers -/

/-- The names of all helpers. -/
def helperNames : List Text := (helpers false).map (·.name)

/-- A line that leaves nothing open, holds no carriage return, and of `names` mentions only those
    `allowed`. -/
def lineFits (names allowed : List Text) (line : Text) : Bool :=
  closes none 0 line && !line.contains '\r'
    && names.all fun n => allowed.contains n || !containsWord (codeFrom none 0 line) n

/-- The first line starts with something other than white space and the mark of an include. -/
def startsProgram (lines : List Text) : Bool :=
  lines.head?.any fun line => line.head?.any fun c => !isBlank c && c != '#'

/-- The lines of the helper are fit to stand in front of a program. -/
def Helper.FitsIn (names : List Text) (h : Helper) : Prop :=
  ∃ parts, h.body = unlines parts ∧ startsProgram parts = true ∧
    parts.all (lineFits names (h.name :: h.needs)) = true

theorem chars_cons {s : String} {l : Text} {ts ls : List Text} (hs : s = String.ofList l) (h : ts = ls) :
    s.toList :: ts = l :: ls := by
  rw [hs, String.toList_ofList, h]

theorem fitsIn_nil (names : List Text) : ∀ h ∈ ([] : List Helper), h.FitsIn names := nofun

theorem fitsIn_cons {needs parts : List Text} {text : List String} (hparts : text.map String.toList = parts)
    (hfit : (startsProgram parts && parts.all (lineFits names (name :: needs))) = true)
    (h : ∀ h ∈ hs, h.FitsIn names) : ∀ h ∈ ⟨name, needs, cppLines text⟩ :: hs, h.FitsIn names :=
  forall_mem_cons.mpr ⟨⟨parts, congrArg unlines hparts, Bool.and_eq_true_iff.mp hfit⟩, h⟩

theorem fitsIn_of_names (hnames : helperNames = names) (h : ∀ h ∈ hs, h.FitsIn names) :
    ∀ h ∈ hs, h.FitsIn helperNames := by
  rw [hnames]
  exact h

theorem fitsIn_helpers : ∀ h ∈ ⟨"_format_output", [], formatOutputSmall⟩ :: helpers true, h.FitsIn helperNames := by
  apply fitsIn_of_names
  · repeat apply chars_cons rfl
    rfl
  · repeat
      apply fitsIn_cons
      · repeat apply chars_cons rfl
        rfl
      · decide +kernel
    exact fitsIn_nil _

/-- What a helper that stands in front of a program does for it and to it. -/
structure Helper.Fits (h : Helper) : Prop where
  complete : Complete h.body
  noReturn : '\r' ∉ h.body
  head : ∃ c r, h.body = c :: r ∧ isBlank c = false ∧ c ≠ '#'
  /-- it mentions itself and what it needs -/
  mentions : ∀ name ∈ helperNames, Mentions h.body name → name = h.name ∨ name ∈ h.needs

theorem isWord_helperNames : ∀ name ∈ helperNames, IsWord name := by decide +kernel

theorem Helper.FitsIn.fits (hfit : h.FitsIn helperNames) : h.Fits := by
  obtain ⟨parts, hbody, hstart, hlines⟩ := hfit
  have hline : ∀ line ∈ parts, lineFits helperNames (h.name :: h.needs) line = true := all_eq_true.mp hlines
  have hcomplete : ∀ line ∈ parts, Complete line := by
    intro line hl
    have := hline line hl
    simp only [lineFits, Bool.and_eq_true] at this
    exact complete_of_closes this.1.1
  refine ⟨hbody ▸ complete_unlines hcomplete, ?_, ?_, fun name hname hm => ?_⟩
  · rw [hbody]
    intro hr
    rcases mem_joinWith hr with hr | ⟨line, hl, hr⟩
    · exact absurd hr (by decide)
    · have := hline line hl
      simp [lineFits, hr] at this
  · unfold startsProgram at hstart
    cases parts with
    | nil => cases hstart
    | cons first parts =>
      cases first with
      | nil => cases hstart
      | cons c r =>
        have hc : isBlank c = false ∧ c ≠ '#' := by simpa using hstart
        refine ⟨c, ?_⟩
        rw [hbody]
        cases parts with
        | nil => exact ⟨r, unlines_singleton _, hc⟩
        | cons next parts => exact ⟨_, unlines_cons_cons _ _ _, hc⟩
  · rw [hbody, mentions_unlines (isWord_helperNames name hname) hcomplete] at hm
    obtain ⟨line, hl, hm⟩ := hm
    rw [mentions_iff (isWord_helperNames name hname), codeText_eq] at hm
    have := hline line hl
    simp only [lineFits, Bool.and_eq_true, all_eq_true] at this
    have := this.2 name hname
    rw [hm, Bool.not_true, Bool.or_false] at this
    simpa using this

theorem fits_of_mem (hh : h ∈ helpers full) : h.Fits := by
  refine (fitsIn_helpers h ?_).fits
  cases full with
  | true => exact mem_cons_of_mem _ hh
  | false =>
    rcases mem_cons.mp hh with rfl | hh
    · exact mem_cons_self
    · exact mem_cons_of_mem _ (mem_cons_of_mem _ hh)

/-! ## 2. The helpers a program gets -/

/-- Names are not used twice, and nothing needs what comes later. -/
def Helper.Precedes (g h : Helper) : Prop := g.name ≠ h.name ∧ h.name ∉ g.needs

instance (g h : Helper) : Decidable (g.Precedes h) := inferInstanceAs (Decidable (_ ∧ _))

theorem helpers_ordered (full : Bool) : (helpers full).Pairwise Helper.Precedes := by
  cases full <;> decide +kernel

theorem map_entry_helpers (full : Bool) :
    (helpers full).map (fun h => (h.name, h.needs)) = (helpers false).map fun h => (h.name, h.needs) := by
  cases full with
  | false => rfl
  | true => simp only [helpers, map_cons, map_nil]

theorem exists_entry (full' : Bool) (hh : h ∈ helpers full) :
    ∃ g ∈ helpers full', g.name = h.name ∧ g.needs = h.needs := by
  have hmem : (h.name, h.needs) ∈ (helpers full').map fun h => (h.name, h.needs) := by
    rw [map_entry_helpers, ← map_entry_helpers full]
    exact mem_map_of_mem hh
  obtain ⟨g, hg, he⟩ := mem_map.mp hmem
  exact ⟨g, hg, (Prod.mk.inj he).1, (Prod.mk.inj he).2⟩

theorem needs_of_needs : ∀ g ∈ helpers false, ∀ n ∈ g.needs, ∃ h ∈ helpers false, h.name = n ∧ h.needs = [] := by
  decide +kernel

theorem needs_congr : ∀ g ∈ helpers false, ∀ h ∈ helpers false, g.name = h.name → g.needs = h.needs := by
  decide +kernel

theorem mem_wantedHelpers :
    n ∈ wantedHelpers s ↔ ∃ g ∈ helpers false, Mentions s g.name ∧ (n = g.name ∨ n ∈ g.needs) := by
  unfold wantedHelpers
  simp only [mem_flatMap, mem_filter, mem_cons, and_assoc]
  refine exists_congr fun g => and_congr_right fun hg => and_congr_left' ?_
  exact (mentions_iff (isWord_helperNames _ (mem_map_of_mem hg)) s).symm

theorem wantedHelpers_needs (hh : h ∈ helpers full) (hw : h.name ∈ wantedHelpers s) (hn : n ∈ h.needs) :
    n ∈ wantedHelpers s := by
  obtain ⟨g, hg, hname, hneeds⟩ := exists_entry false hh
  obtain ⟨w, hwmem, hm, hcase⟩ := mem_wantedHelpers.mp hw
  rw [← hneeds] at hn
  rcases hcase with he | he
  · rw [needs_congr g hg w hwmem (hname.trans he)] at hn
    exact mem_wantedHelpers.mpr ⟨w, hwmem, hm, .inr hn⟩
  · -- what is itself only needed needs nothing
    obtain ⟨x, hx, hxname, hxneeds⟩ := needs_of_needs w hwmem _ he
    rw [needs_congr g hg x hx (hname.trans hxname.symm), hxneeds] at hn
    cases hn

/-- The helpers that stand in front of a program. -/
def chosenHelpers (s : Text) (full : Bool) : List Helper :=
  (helpers full).filter fun h => (wantedHelpers s).contains h.name

theorem fits_of_chosen {g : Helper} (hg : g ∈ chosenHelpers s full) : g.Fits :=
  fits_of_mem (mem_filter.mp hg).1

/-- The text of helpers, each with an empty line behind it. -/
def definitions (hs : List Helper) : Text := hs.flatMap fun h => h.body ++ "\n\n"

theorem joinWith_bodies (h : hs ≠ []) : joinWith "\n\n" (hs.map (·.body)) ++ "\n\n" = definitions hs := by
  induction hs with
  | nil => exact absurd rfl h
  | cons g hs ih =>
    cases hs with
    | nil => simp [joinWith, definitions]
    | cons g' hs =>
      have := ih (cons_ne_nil _ _)
      unfold joinWith at this ⊢
      rw [map_cons] at this
      rw [map_cons, map_cons, intercalate_cons_cons, append_assoc, this]
      rfl

theorem addHelpers_eq (s : Text) (full : Bool) :
    addHelpers s full = definitions (chosenHelpers s full) ++ s := by
  show (if ((chosenHelpers s full).map (·.body)).isEmpty then s
    else joinWith "\n\n" ((chosenHelpers s full).map (·.body)) ++ "\n\n" ++ s) = _
  by_cases h : chosenHelpers s full = []
  · rw [h]
    rfl
  · rw [if_neg (by simpa using h), joinWith_bodies h]

theorem mentions_definitions {word : Text} (hw : IsWord word) (h : ∀ g ∈ hs, g.Fits) (s : Text) :
    Mentions (definitions hs ++ s) word ↔ (∃ g ∈ hs, Mentions g.body word) ∨ Mentions s word := by
  induction hs with
  | nil => simp [definitions]
  | cons g hs ih =>
    have hsplit : definitions (g :: hs) ++ s = g.body ++ '\n' :: ([] ++ '\n' :: (definitions hs ++ s)) := by
      simp [definitions]
    rw [hsplit, mentions_append hw (h g mem_cons_self).complete,
      mentions_append hw (complete_of_blank blank_nil), or_iff_right (not_mentions_of_blank hw blank_nil),
      ih (forall_mem_cons.mp h).2]
    simp [or_assoc]

theorem mem_chosenHelpers_of_mentions (hh : h ∈ helpers full)
    (hm : Mentions (definitions (chosenHelpers s full) ++ s) h.name) : h ∈ chosenHelpers s full := by
  obtain ⟨g, hg, hname, _⟩ := exists_entry false hh
  have hmem : h.name ∈ helperNames := hname ▸ mem_map_of_mem hg
  have hwanted : h.name ∈ wantedHelpers s := by
    rcases (mentions_definitions (isWord_helperNames _ hmem) (fun _ => fits_of_chosen) s).mp hm with ⟨x, hx, hm⟩ | hm
    · have hxw : x.name ∈ wantedHelpers s := by simpa using (mem_filter.mp hx).2
      rcases (fits_of_chosen hx).mentions _ hmem hm with he | he
      · rw [he]
        exact hxw
      · exact wantedHelpers_needs (mem_filter.mp hx).1 hxw he
    · exact mem_wantedHelpers.mpr ⟨g, hg, hname ▸ hm, .inl hname.symm⟩
  exact mem_filter.mpr ⟨hh, by simpa using hwanted⟩

/-- Each helper stands once, behind those it needs. -/
theorem chosenHelpers_split (hh : h ∈ chosenHelpers s full) :
    ∃ earlier later, chosenHelpers s full = earlier ++ h :: later ∧ (∀ g ∈ earlier ++ later, g.name ≠ h.name) ∧
      ∀ n ∈ h.needs, ∃ g ∈ earlier, g.name = n := by
  obtain ⟨earlier, later, he⟩ := append_of_mem hh
  have hpair : (earlier ++ h :: later).Pairwise Helper.Precedes :=
    he ▸ (helpers_ordered full).sublist filter_sublist
  obtain ⟨_, hlater, hcross⟩ := pairwise_append.mp hpair
  have hbehind := (pairwise_cons.mp hlater).1
  refine ⟨earlier, later, he, fun g hg => ?_, fun n hn => ?_⟩
  · rcases mem_append.mp hg with hg | hg
    · exact (hcross g hg h mem_cons_self).1
    · exact ((hbehind g hg).1).symm
  · have htable := (mem_filter.mp hh).1
    obtain ⟨g, hg, hname, hneeds⟩ := exists_entry false htable
    obtain ⟨x, hx, hxname, hxneeds⟩ := needs_of_needs g hg n (hneeds ▸ hn)
    obtain ⟨y, hy, hyname, _⟩ := exists_entry full hx
    have hwanted : n ∈ wantedHelpers s :=
      wantedHelpers_needs htable (by simpa using (mem_filter.mp hh).2) hn
    have hychosen : y ∈ chosenHelpers s full :=
      mem_filter.mpr ⟨hy, by rw [hyname, hxname]; simpa using hwanted⟩
    rw [he] at hychosen
    rcases mem_append.mp hychosen with hmem | hmem
    · exact ⟨y, hmem, hyname.trans hxname⟩
    · rcases mem_cons.mp hmem with hsame | hmem
      · -- nothing needs itself
        have hself : g.name = x.name := by rw [hname, ← hyname, hsame]
        rw [← hneeds, needs_congr g hg x hx hself, hxneeds] at hn
        cases hn
      · exact absurd (by rw [hyname, hxname]; exact hn) (hbehind y hmem).2

theorem not_mentions_includeLine_helper (hname : name ∈ helperNames) {entry : Text × List Text}
    (hentry : entry ∈ headerTable) : ¬ Mentions (includeLine entry.1) name := by
  have h : ∀ entry ∈ headerTable, ∀ name ∈ helperNames,
      containsWord (codeFrom none 0 (includeLine entry.1)) name = false := by decide +kernel
  rw [mentions_iff (isWord_helperNames name hname), codeText_eq, h entry hentry name hname]
  exact Bool.false_ne_true

/-! ## 3. The settled lines -/

namespace Segment

theorem suffixed_eq (h : anySuffixed before segs = false) : suffixed before segs = texts segs := by
  induction segs generalizing before with
  | nil => rfl
  | cons seg segs ih =>
    rw [anySuffixed, Bool.or_eq_false_iff] at h
    rw [suffixed, h.1, ih h.2, if_neg Bool.false_ne_true, append_nil]
    rfl

theorem mem_suffixed (h : c ∈ suffixed before segs) : c = 's' ∨ c ∈ texts segs := by
  induction segs generalizing before with
  | nil => cases h
  | cons seg segs ih =>
    rw [suffixed, append_assoc, mem_append, mem_append] at h
    rcases h with h | h | h
    · exact .inr (mem_append_left _ h)
    · split at h
      · exact .inl (mem_singleton.mp h)
      · cases h
    · exact (ih h).imp_right (mem_append_right _)

end Segment

theorem mem_replaceSymbolsInCode {t : Text} (h : c ∈ replaceSymbolsInCode t) : c ∈ t ∨ isPathChar c = true := by
  induction t using pathInduction with
  | path u hu =>
    rw [replaceSymbolsInCode_path hu] at h
    exact .inr (isPath_settlePath hu none c h)
  | step u d v hu hd ih =>
    rw [replaceSymbolsInCode_step hu hd, mem_append, mem_cons] at h
    rcases h with h | h | h
    · exact .inr (isPath_settlePath hu (some d) c h)
    · exact .inl (by rw [h]; simp)
    · exact (ih h).imp_left fun h => mem_append_right u (mem_cons_of_mem d h)

theorem mem_replaceSymbols (h : c ∈ replaceSymbols s) : c ∈ s ∨ isPathChar c = true := by
  unfold replaceSymbols mapCode at h
  rw [mem_flatten] at h
  obtain ⟨t, ht, hc⟩ := h
  obtain ⟨seg, hseg, rfl⟩ := mem_map.mp ht
  have htext {d : Char} (hd : d ∈ seg.text) : d ∈ s := by
    rw [← texts_segments s]
    exact mem_flatten.mpr ⟨seg.text, mem_map_of_mem hseg, hd⟩
  split at hc
  · exact (mem_replaceSymbolsInCode hc).imp_left htext
  · exact .inl (htext hc)

section

variable {output : List Text} (hr : '\r' ∉ unlines output)

include hr

theorem return_not_mem_settle : '\r' ∉ settle output := by
  have hbody : '\r' ∉ replaceSymbols (suffixStrings (unlines output)).1 := by
    intro h
    rcases mem_replaceSymbols h with h | h
    · rcases mem_suffixed h with h | h
      · cases h
      · rw [texts_segments] at h
        exact hr h
    · exact absurd h (by decide)
  unfold settle
  split
  rename_i body suffixed hs
  rw [hs] at hbody
  split
  · intro h
    exact (mem_append.mp h).elim (by decide) hbody
  · exact hbody

theorem not_leadsInclude_settle (hinc : ∀ line ∈ lines (unlines output), startsWith (trim line) "#include" = false) :
    ¬ LeadsInclude (settle output) := by
  have houtput : ¬ LeadsInclude (unlines output) := by
    have hlines : ¬ LeadsInclude (unlines (lines (unlines output))) :=
      not_leadsInclude_unlines fun line hline => not_leadsInclude_of_trim (hinc line hline)
    rcases eq_unlines_lines hr with he | he
    · rw [he]
      exact hlines
    · rw [he]
      exact fun h => (leadsInclude_append h).elim hlines (not_leadsInclude_of_blank blank_nil)
  unfold settle suffixStrings
  simp only
  split
  · exact not_leadsInclude_of_head rfl (by decide) _
  · rename_i hs
    intro h
    have := leadsInclude_of_replaceSymbols h
    rw [suffixed_eq (Bool.eq_false_iff.mpr hs), texts_segments] at this
    exact houtput this

end

/-! ## 4. The program -/

section

variable (output : List Text) (flags : ProgramFlags)

/-- The settled lines with their helpers. -/
def withHelpers : Text := addHelpers (settle output) (flags.needsFullFormatter (settle output))

theorem finish_eq : ∃ e, (e = [] ∨ e = ['\n']) ∧
    finish output flags = includeBlock (requiredHeaders (programBody (withHelpers output flags)))
      ++ (programBody (withHelpers output flags) ++ e) := by
  show ∃ e, _ ∧ (if endsWith (addIncludes (withHelpers output flags)) "\n" then
    addIncludes (withHelpers output flags) else addIncludes (withHelpers output flags) ++ "\n") = _
  rw [addIncludes_eq]
  split
  · exact ⟨[], .inl rfl, by rw [append_nil]⟩
  · exact ⟨['\n'], .inr rfl, append_assoc _ _ _⟩

theorem requiredHeaders_finish :
    requiredHeaders (finish output flags) = requiredHeaders (programBody (withHelpers output flags)) := by
  obtain ⟨e, he, heq⟩ := finish_eq output flags
  rw [heq, requiredHeaders_includeBlock]
  rcases he with rfl | rfl
  · rw [append_nil]
  · exact requiredHeaders_congr fun entry hentry symbol hsymbol =>
      mentions_concat_newline (isWord_symbol entry hentry symbol hsymbol) _

end

theorem trim_append_newline (he : e = [] ∨ e = ['\n']) (s : Text) : trim (s ++ e) = trim s := by
  have hblank : Blank e := by
    rcases he with rfl | rfl
    · exact blank_nil
    · exact isAllBlank_iff.mp rfl
  exact trim_append_blank hblank s

section

variable {output : List Text} (hr : '\r' ∉ unlines output)
  (hinc : ∀ line ∈ lines (unlines output), startsWith (trim line) "#include" = false)

include hr

theorem return_not_mem_withHelpers (flags : ProgramFlags) : '\r' ∉ withHelpers output flags := by
  unfold withHelpers
  rw [addHelpers_eq]
  intro h
  rcases mem_append.mp h with h | h
  · obtain ⟨g, hg, h⟩ := mem_flatMap.mp h
    rcases mem_append.mp h with h | h
    · exact (fits_of_chosen hg).noReturn h
    · exact absurd h (by decide)
  · exact return_not_mem_settle hr h

include hinc

theorem not_leadsInclude_withHelpers (flags : ProgramFlags) : ¬ LeadsInclude (withHelpers output flags) := by
  unfold withHelpers
  rw [addHelpers_eq]
  cases hc : chosenHelpers (settle output) (flags.needsFullFormatter (settle output)) with
  | nil => exact not_leadsInclude_settle hr hinc
  | cons g hs =>
    have hg : g ∈ chosenHelpers (settle output) (flags.needsFullFormatter (settle output)) :=
      hc ▸ mem_cons_self
    obtain ⟨c, r, hbody, hblank, hhash⟩ := (fits_of_chosen hg).head
    rw [definitions, flatMap_cons, hbody]
    exact not_leadsInclude_of_head hblank hhash _

theorem mentions_finish (flags : ProgramFlags) (hname : name ∈ helperNames) :
    Mentions (finish output flags) name ↔ Mentions (withHelpers output flags) name := by
  have hw := isWord_helperNames name hname
  obtain ⟨e, he, heq⟩ := finish_eq output flags
  have hbody := (programBody_of_not_leadsInclude (return_not_mem_withHelpers hr flags)
    (not_leadsInclude_withHelpers hr hinc flags)).2 name hw
  rw [heq, mentions_includeBlock hw (fun _ => not_mentions_includeLine_helper hname), ← hbody]
  rcases he with rfl | rfl
  · rw [append_nil]
  · exact mentions_concat_newline hw _

theorem programBody_withHelpers (flags : ProgramFlags) (he : e = [] ∨ e = ['\n']) :
    ∃ body, programBody (withHelpers output flags) ++ e
        = definitions (chosenHelpers (settle output) (flags.needsFullFormatter (settle output))) ++ body ∧
      trim body = trim (settle output) := by
  have hreturn := return_not_mem_withHelpers hr flags
  have hlead := not_leadsInclude_withHelpers hr hinc flags
  have htext : withHelpers output flags = _ := addHelpers_eq (settle output) _
  cases hc : chosenHelpers (settle output) (flags.needsFullFormatter (settle output)) with
  | nil =>
    rw [hc] at htext
    refine ⟨programBody (withHelpers output flags) ++ e, rfl, ?_⟩
    rw [trim_append_newline he, (programBody_of_not_leadsInclude hreturn hlead).1, htext]
    rfl
  | cons g hs =>
    have hg : g ∈ chosenHelpers (settle output) (flags.needsFullFormatter (settle output)) :=
      hc ▸ mem_cons_self
    rw [hc] at htext
    -- the text starts with a helper, so the lines below lose at most a newline at their end
    obtain ⟨c, r, hbody, hblank, hhash⟩ := (fits_of_chosen hg).head
    have hhead : (withHelpers output flags).head? = some c := by
      rw [htext, definitions, flatMap_cons, hbody]
      rfl
    rcases eq_programBody_append hreturn hhead hblank hhash with heq | heq
    · refine ⟨settle output ++ e, ?_, trim_append_newline he _⟩
      rw [← heq, htext, append_assoc]
    · rcases eq_nil_or_concat' (settle output) with hnil | ⟨body, d, hconcat⟩
      · -- lines that mention a helper are not empty
        obtain ⟨w, hw, hm, _⟩ := mem_wantedHelpers.mp (contains_iff_mem.mp (mem_filter.mp hg).2)
        rw [hnil] at hm
        exact absurd hm (not_mentions_of_blank (isWord_helperNames _ (mem_map_of_mem hw)) blank_nil)
      · have hends : definitions (g :: hs) ++ body ++ [d] = programBody (withHelpers output flags) ++ ['\n'] := by
          rw [← heq, htext, hconcat, append_assoc]
        obtain ⟨hfront, hlast⟩ := append_inj' hends rfl
        refine ⟨body ++ e, ?_, ?_⟩
        · rw [← hfront, append_assoc]
        · rw [trim_append_newline he, hconcat, hlast, trim_append_newline (.inr rfl)]

end

/-- **Every finished program is self-contained.** Its first lines include exactly the headers its
    code asks for, in order and each once. If the lines hold no carriage return and no include of
    their own, the program is these includes, helpers and the settled lines, white space at their
    ends apart; and each helper that the program mentions stands there once, behind all that it
    needs. -/
theorem finish_selfContained (output : List Text) (flags : ProgramFlags) :
    (leadingHeaders (lines (finish output flags)) = requiredHeaders (finish output flags) ∧
      (requiredHeaders (finish output flags)).Pairwise (· < ·)) ∧
    ('\r' ∉ unlines output →
      (∀ line ∈ lines (unlines output), startsWith (trim line) "#include" = false) →
      ∃ (hs : List Helper) (body : Text),
        finish output flags
          = includeBlock (requiredHeaders (finish output flags)) ++ (definitions hs ++ body) ∧
        trim body = trim (settle output) ∧
        hs.Sublist (helpers (flags.needsFullFormatter (settle output))) ∧
        ∀ h ∈ helpers (flags.needsFullFormatter (settle output)),
          Stands h.name (codeText (finish output flags)) →
          ∃ earlier later, hs = earlier ++ h :: later ∧ (∀ g ∈ earlier ++ later, g.name ≠ h.name) ∧
            ∀ n ∈ h.needs, ∃ g ∈ earlier, g.name = n) := by
  obtain ⟨e, he, heq⟩ := finish_eq output flags
  refine ⟨⟨?_, sorted_requiredHeaders _⟩, fun hr hinc => ?_⟩
  · rw [requiredHeaders_finish, heq]
    exact leadingHeaders_includeBlock _ he
  · obtain ⟨body, hbody, htrim⟩ := programBody_withHelpers hr hinc flags he
    refine ⟨chosenHelpers (settle output) (flags.needsFullFormatter (settle output)), body, ?_, htrim,
      filter_sublist, fun h hh hs => ?_⟩
    · rw [requiredHeaders_finish, heq, hbody]
    · obtain ⟨g, hg, hname, _⟩ := exists_entry false hh
      have hmem : h.name ∈ helperNames := hname ▸ mem_map_of_mem hg
      have hm := (mentions_finish hr hinc flags hmem).mp hs
      unfold withHelpers at hm
      rw [addHelpers_eq] at hm
      exact chosenHelpers_split (mem_chosenHelpers_of_mentions hh hm)

/-- A program that formats a value, with the name of another helper in a literal. -/
def sampleLines : List Text :=
  ["auto main() -> int \x7b", "    auto s = _format_string(xs) + \"_len\";", "    std::cout << s << std::endl;", "\x7d"]

theorem finish_selfContained_sampleLines :
    '\r' ∉ unlines sampleLines ∧
    (∀ line ∈ lines (unlines sampleLines), startsWith (trim line) "#include" = false) ∧
    Stands "_format_string" (codeText (finish sampleLines ⟨true, true⟩)) ∧
    ∃ hs body earlier later,
      finish sampleLines ⟨true, true⟩
        = includeBlock (requiredHeaders (finish sampleLines ⟨true, true⟩)) ++ (definitions hs ++ body) ∧
      hs = earlier ++ ⟨"_format_string", ["_format_output"], formatStringBody⟩ :: later ∧
      ∃ g ∈ earlier, g.name = ("_format_output" : Text) := by
  have hr : '\r' ∉ unlines sampleLines := by decide +kernel
  have hinc : ∀ line ∈ lines (unlines sampleLines), startsWith (trim line) "#include" = false := by decide +kernel
  have hname : ("_format_string" : Text) ∈ helperNames := by decide +kernel
  have hsettled : containsWord (codeText (settle sampleLines)) "_format_string" = true := by decide +kernel
  have hw := isWord_helperNames _ hname
  have hstands : Stands "_format_string" (codeText (finish sampleLines ⟨true, true⟩)) := by
    refine (mentions_finish hr hinc _ hname).mpr ?_
    unfold withHelpers
    rw [addHelpers_eq]
    exact (mentions_definitions hw (fun _ => fits_of_chosen) _).mpr (.inr ((mentions_iff hw _).mpr hsettled))
  obtain ⟨hs, body, heq, _, _, hdefs⟩ := (finish_selfContained sampleLines ⟨true, true⟩).2 hr hinc
  obtain ⟨earlier, later, hsplit, _, hneeds⟩ :=
    hdefs ⟨"_format_string", ["_format_output"], formatStringBody⟩ (mem_cons_of_mem _ mem_cons_self) hstands
  exact ⟨hr, hinc, hstands, hs, body, earlier, later, heq, hsplit, hneeds _ mem_cons_self⟩

end Linewise
