/-
  Switches in each other, and what their chains do.

  Line by line a switch becomes the chain that `switchCode` describes, to any depth: the one label
  that waits is always the label of the clause that comes next.
-/
import Linewise.Proofs.Emission

namespace Linewise

open Text List

variable {F : Frames}

/-! ## 1. Switches as lines -/

mutual

/-- The clauses as they are written. -/
def Clauses.texts : Clauses → List Text
  | .none => []
  | .default _ body => "default:" :: body.texts
  | .case _ parts body falls rest =>
    caseText parts :: (body.texts ++ ((if falls then [("fallthrough" : Text)] else []) ++ rest.texts))

/-- The body as it is written. -/
def Body.texts : Body → List Text
  | .done => []
  | .statement texts rest => texts ++ rest.texts
  | .switch init tag clauses rest => switchText init tag :: (clauses.texts ++ (("\x7d" : Text) :: rest.texts))

end

mutual

/-- The clauses are made of lines as they can be written. -/
def Clauses.Written : Clauses → Prop
  | .none => True
  | .default _ body => body.Written
  | .case _ parts body _ rest => CaseParts parts ∧ body.Written ∧ rest.Written

/-- A body is made of statements and switches as they can be written. -/
def Body.Written : Body → Prop
  | .done => True
  | .statement texts rest => Grammar .statement texts ∧ (∀ t ∈ texts, Quiet t) ∧ rest.Written
  | .switch init tag clauses rest => SwitchParts init tag ∧ clauses.Written ∧ rest.Written

end

mutual

/-- What may stop a run: the statements in the clauses, and the initializations. -/
def Clauses.hazards : Clauses → List (List Text)
  | .none => []
  | .default _ body => body.hazards
  | .case _ _ body _ rest => body.hazards ++ rest.hazards

/-- What in a body may stop a run. -/
def Body.hazards : Body → List (List Text)
  | .done => []
  | .statement texts rest => texts :: rest.hazards
  | .switch init tag clauses rest =>
    (if init = none then [] else [[switchText init tag]]) ++ (clauses.hazards ++ rest.hazards)

end

/-! ## 2. The chain of a switch, line by line -/

/-- The frames behind the clauses of a switch: its own frame knows whether one was entered. -/
def SwitchFrame.behind (f : SwitchFrame) : Clauses → SwitchFrame
  | .none => f
  | _ => { f with firstClause := false }

/-- The frames behind clauses. -/
def Frames.behind (F : Frames) (f : SwitchFrame) (fs : List SwitchFrame) (cs : Clauses) : Frames :=
  { F with switches := f.behind cs :: fs }

theorem Frames.InSwitch.behind {f : SwitchFrame} {fs : List SwitchFrame} (h : F.InSwitch f fs) (cs : Clauses) :
    (F.behind f fs cs).InSwitch (f.behind cs) fs := by
  cases cs <;> exact ⟨h.blocks, h.depth, rfl, h.closures, h.function⟩

theorem Frames.behind_enter (F : Frames) (f : SwitchFrame) (fs : List SwitchFrame) (cs : Clauses) :
    (F.enter f fs).behind { f with firstClause := false } fs cs = F.enter f fs := by
  cases cs <;> rfl

theorem Emits.mark {texts : List Text} {reason : Prop} {F F' : Frames} {L L' : Labels} {code : List Cpp}
    (h : Emits texts reason F L code F' L') (m : Nat) : Emits texts reason F L (.mark m :: code) F' L' := by
  intro lines r number hl hplain hp hF hL
  have h := h lines r number hl hplain hp hF hL
  cases hs : r.sourceLines number lines with
  | error halt =>
    rw [hs] at h
    exact h
  | ok r' =>
    rw [hs] at h
    obtain ⟨hp', hF', hL', ls, hout, hren⟩ := h
    exact ⟨hp', hF', hL', ls, hout, .mark hren⟩

theorem emits_jump (reason : Prop) (hF : F.blocks = []) (n l : Nat) (falls : Bool) :
    Emits (if falls then ["fallthrough"] else []) reason F ⟨none, n, l⟩ (jumpCode l falls) F
      ⟨awaited l falls, n, l + fallCount falls⟩ := by
  cases falls with
  | false => exact emits_nil reason F _
  | true => exact emits_fallthrough reason hF ⟨none, n, l⟩

theorem newline_not_mem_awaited (l : Nat) (falls : Bool) : ∀ name ∈ awaited l falls, '\n' ∉ name := by
  intro name hname
  cases falls with
  | false => cases hname
  | true =>
    cases hname
    exact newline_not_mem_name .label l

theorem newline_not_mem_discriminant (n : Nat) (tag : Text) :
    ∀ name ∈ discriminant? n tag, '\n' ∉ name := by
  intro name hname
  unfold discriminant? at hname
  split at hname
  · cases hname
  · cases hname
    exact newline_not_mem_name .switch n

theorem takes_awaited {falls : Bool} {rest : Clauses} (h : falls = true → rest ≠ .none) (l : Nat) :
    rest.takes (awaited l falls) = awaited l falls ∧ rest.leaves (awaited l falls) = none := by
  cases falls with
  | false => cases rest <;> exact ⟨rfl, rfl⟩
  | true =>
    cases rest with
    | none => exact absurd rfl (h rfl)
    | default mark body => exact ⟨rfl, rfl⟩
    | case mark parts body falls rest => exact ⟨rfl, rfl⟩

section Nested

variable {reason : Prop}

theorem emits_whole {init : Option Text} {tag : Text} {cs : Clauses} (h : SwitchParts init tag)
    (hreason : init ≠ none → Stops [switchText init tag] → reason) (hF : F.Below F.depth) {L : Labels}
    (hcs : ∀ (F' : Frames) (L' : Labels) (f : SwitchFrame) (fs : List SwitchFrame), F'.InSwitch f fs →
      (∀ name ∈ f.discriminant, '\n' ∉ name) → L'.waiting = L.waiting →
      Emits cs.texts reason F' L' (cs.header f.firstClause f.discriminant
          ++ (labelCode (cs.takes L'.waiting) ++ cs.code L'.names L'.jumps f.discriminant))
        (F'.behind f fs cs) ⟨cs.leaves L'.waiting, L'.names + cs.tagged, L'.jumps + cs.jumps⟩) :
    Emits (switchText init tag :: (cs.texts ++ [("\x7d" : Text)])) reason F L
      (switchCode L.names L.jumps L.waiting init tag cs) F
      ⟨cs.leaves L.waiting, L.names + tagCount tag + cs.tagged, L.jumps + cs.jumps⟩ := by
  have hin : Frames.InSwitch { F with
      depth := F.depth + 1
      switches := ⟨discriminant? L.names tag, true, F.depth⟩ :: F.switches }
      ⟨discriminant? L.names tag, true, F.depth⟩ F.switches :=
    ⟨hF.blocks, rfl, rfl, hF.closures, hF.function⟩
  have hhead := emits_switch h hreason hF.blocks L
  have hclauses := hcs _ { L with names := L.names + tagCount tag } _ _ hin
    (newline_not_mem_discriminant _ tag) rfl
  have hend := emits_switchEnd reason (hin.behind cs)
    ⟨cs.leaves L.waiting, L.names + tagCount tag + cs.tagged, L.jumps + cs.jumps⟩
  have hclose : (if (SwitchFrame.behind ⟨discriminant? L.names tag, true, F.depth⟩ cs).firstClause = true
      then [] else [Cpp.close]) = closeCode cs := by
    cases cs <;> rfl
  have hback : { Frames.behind { F with
      depth := F.depth + 1
      switches := ⟨discriminant? L.names tag, true, F.depth⟩ :: F.switches }
      ⟨discriminant? L.names tag, true, F.depth⟩ F.switches cs with
        depth := (SwitchFrame.behind ⟨discriminant? L.names tag, true, F.depth⟩ cs).depth
        switches := F.switches } = F := by
    cases cs <;> rfl
  rw [hclose, hback] at hend
  have := hhead.cons (hclauses.append hend)
  unfold switchCode
  simpa only [append_assoc] using this

mutual

theorem Clauses.emits : ∀ cs : Clauses, cs.Written → cs.Falls →
    (∀ texts ∈ cs.hazards, Stops texts → reason) →
    ∀ (F : Frames) (L : Labels) (f : SwitchFrame) (fs : List SwitchFrame), F.InSwitch f fs →
      (∀ name ∈ f.discriminant, '\n' ∉ name) → (∀ name ∈ L.waiting, '\n' ∉ name) →
      Emits cs.texts reason F L (cs.header f.firstClause f.discriminant
          ++ (labelCode (cs.takes L.waiting) ++ cs.code L.names L.jumps f.discriminant))
        (F.behind f fs cs) ⟨cs.leaves L.waiting, L.names + cs.tagged, L.jumps + cs.jumps⟩
  | .none, _, _, _ => by
    intro F L f fs hF _ _
    have hsame : F.behind f fs .none = F := by
      show { F with switches := f :: fs } = F
      rw [← hF.switches]
    rw [hsame]
    exact emits_nil reason F L
  | .default mark body, hw, hf, hz => by
    intro F L f fs hF _ hl
    have hbody := Body.emits body hw hf hz (F.enter f fs) { L with waiting := .none } hF.enter.below rfl
    have := (emits_default reason hF hl).cons (hbody.mark mark)
    rw [append_assoc] at this
    exact this
  | .case mark parts body falls rest, hw, hf, hz => by
    obtain ⟨hparts, hwb, hwr⟩ := hw
    obtain ⟨hfb, hfalls, hfr⟩ := hf
    intro F L f fs hF hd hl
    have hbody := Body.emits body hwb hfb (fun t ht => hz t (mem_append.mpr (.inl ht)))
      (F.enter f fs) { L with waiting := .none } hF.enter.below rfl
    have hjump := emits_jump reason hF.enter.blocks (L.names + body.tagged)
      (L.jumps + body.jumps) falls
    have hrest := Clauses.emits rest hwr hfr (fun t ht => hz t (mem_append.mpr (.inr ht)))
      (F.enter f fs) ⟨awaited (L.jumps + body.jumps) falls, L.names + body.tagged,
        L.jumps + body.jumps + fallCount falls⟩ _ fs hF.enter hd (newline_not_mem_awaited _ falls)
    obtain ⟨htakes, hleaves⟩ := takes_awaited hfalls (L.jumps + body.jumps)
    rw [Frames.behind_enter, htakes, hleaves] at hrest
    have := (emits_case hparts reason hF hd hl).cons
      ((hbody.append (hjump.append hrest)).mark mark)
    have hjumps : L.jumps + body.jumps + fallCount falls + rest.jumps
        = L.jumps + (body.jumps + fallCount falls + rest.jumps) := by omega
    rw [append_assoc, Nat.add_assoc L.names, hjumps] at this
    exact this

theorem Body.emits : ∀ b : Body, b.Written → b.Falls →
    (∀ texts ∈ b.hazards, Stops texts → reason) →
    ∀ (F : Frames) (L : Labels), F.Below F.depth → L.waiting = none →
      Emits b.texts reason F L (b.code L.names L.jumps) F ⟨none, L.names + b.tagged, L.jumps + b.jumps⟩
  | .done, _, _, _ => by
    intro F L _ hl
    have hL : (⟨none, L.names, L.jumps⟩ : Labels) = L := by rw [← hl]
    show Emits [] reason F L [] F ⟨none, L.names, L.jumps⟩
    rw [hL]
    exact emits_nil reason F L
  | .statement texts rest, hw, hf, hz => by
    obtain ⟨hg, hq, hwr⟩ := hw
    intro F L hF hl
    have hone := emits_statement hg hq (hz texts mem_cons_self) hF L
    have hrest := Body.emits rest hwr hf (forall_mem_cons.mp hz).2 F L hF hl
    exact hone.append hrest
  | .switch init tag clauses rest, hw, hf, hz => by
    obtain ⟨hparts, hwc, hwr⟩ := hw
    obtain ⟨hfc, hfr⟩ := hf
    intro F L hF hl
    have hstop : init ≠ none → Stops [switchText init tag] → reason := by
      intro hne
      exact hz _ (mem_append.mpr (.inl (by rw [if_neg hne]; exact mem_singleton_self _)))
    have hcs := Clauses.emits clauses hwc hfc fun t ht =>
      hz t (mem_append.mpr (.inr (mem_append.mpr (.inl ht))))
    have hwhole := emits_whole hparts hstop hF fun F' L' f fs hF' hd hL' =>
      hcs F' L' f fs hF' hd (by rw [hL', hl]; exact fun name h => by cases h)
    have hleaves : clauses.leaves L.waiting = none := by
      rw [hl]
      cases clauses <;> rfl
    rw [hleaves] at hwhole
    have hrest := Body.emits rest hwr hfr
      (fun t ht => hz t (mem_append.mpr (.inr (mem_append.mpr (.inr ht))))) F
      ⟨none, L.names + tagCount tag + clauses.tagged, L.jumps + clauses.jumps⟩ hF rfl
    have := hwhole.append hrest
    rw [hl, ← Body.code_switch] at this
    simpa only [Body.texts, Body.tagged, Body.jumps, cons_append, append_assoc,
      nil_append, Nat.add_assoc] using this

end

end Nested

/-! ## 3. The meaning of a switch -/

/-- What may stop a run over a whole switch. -/
def switchHazards (init : Option Text) (tag : Text) (cs : Clauses) : List (List Text) :=
  (if init = none then [] else [[switchText init tag]]) ++ cs.hazards

theorem nodup_labels (start count : Nat) : ((range' start count).map labelName).Nodup := by
  have hrange : (range' start count).Nodup := nodup_range'
  rw [Nodup, pairwise_map]
  exact hrange.imp fun hne h => hne (labelName_injective h)

theorem labels_of_switch (n l : Nat) (waiting init : Option Text) (tag : Text) (cs : Clauses) :
    Cpp.labels (switchCode n l waiting init tag cs)
      = (cs.takes waiting).toList ++ (range' l cs.jumps).map labelName := by
  rw [Cpp.labels_switchCode, Clauses.labels_code]

theorem nodup_labels_of_switch {n l : Nat} {waiting : Option Text}
    (hwait : ∀ name ∈ waiting, ∃ i < l, name = labelName i) (init : Option Text) (tag : Text)
    (cs : Clauses) : (Cpp.labels (switchCode n l waiting init tag cs)).Nodup := by
  rw [labels_of_switch, nodup_append]
  refine ⟨by cases cs.takes waiting <;> simp, nodup_labels l cs.jumps, ?_⟩
  intro name hname name' hname' hsame
  obtain ⟨i, hi, hold⟩ := hwait name (Clauses.mem_of_mem_takes (Option.mem_toList.mp hname))
  obtain ⟨j, hj, hnew⟩ := mem_map.mp hname'
  have hij : i = j := labelName_injective (hold.symm.trans (hsame.trans hnew.symm))
  have hle := (mem_range'_1.mp hj).1
  omega

/-- **What is written for a switch does what the switch does.** A run over its lines writes its
    chain and nothing else, and stops only where a statement or an initialization in it stops a run.
    In every program around it, and whatever the tests answer, the chain runs the bodies the switch
    runs: the first clause that fits, or else the one without values, and on for as long as bodies
    fall through. A jump has one label, right behind the header of the next clause, and no label is
    used twice. -/
theorem switch_meaning {r : Run} {number : Nat} {lines : List Text} {init : Option Text} {tag : Text}
    {cs : Clauses} (hparts : SwitchParts init tag) (hw : cs.Written) (hf : cs.Falls)
    (hl : lines.map trim = switchText init tag :: (cs.texts ++ [("\x7d" : Text)]))
    (hplain : ∀ t ∈ lines.map trim, Plain t ∧ '\n' ∉ t) (hpending : r.pending = none)
    (hF : r.state.frames.Below r.state.depth)
    (hwait : ∀ name ∈ r.state.pendingLabel, ∃ i < r.state.names.label, name = labelName i)
    {code : List Cpp} (hcode : code = switchCode r.state.names.switch r.state.names.label
      r.state.pendingLabel init tag cs) :
    (match r.sourceLines number lines with
      | .ok r' => r'.pending = none ∧ r'.state.frames = r.state.frames ∧
          (∃ ls, r'.output = r.output ++ ls ∧ Rendered code ls) ∧
          ∀ name ∈ Cpp.labels code, some name = r.state.pendingLabel ∨
            ∃ i, r.state.names.label ≤ i ∧ i < r'.state.names.label ∧ name = labelName i
      | .error _ => ∃ texts ∈ switchHazards init tag cs, Stops texts) ∧
    (∀ (ρ : Oracle) (pre post : List Cpp) (h : List Event), (Cpp.labels (pre ++ (code ++ post))).Nodup →
      Cpp.Reaches ρ (pre ++ (code ++ post)) ⟨false, code ++ post, h⟩
        ⟨false, post, cs.select ρ (r.state.names.switch + tagCount tag)
          (discriminant? r.state.names.switch tag)
          (h ++ initEvents init ++ bindEvents r.state.names.switch tag)⟩) ∧
    (Cpp.labels code).Nodup ∧ Cpp.JumpsForward code := by
  subst hcode
  refine ⟨?_, ?_, nodup_labels_of_switch hwait init tag cs,
    Cpp.jumpsForward_switchCode _ _ _ _ (cs.jumpsForward_code _ _ _ hf)⟩
  · have hstop : init ≠ none → Stops [switchText init tag] →
        ∃ texts ∈ switchHazards init tag cs, Stops texts := by
      intro hne hs
      refine ⟨_, mem_append.mpr (.inl ?_), hs⟩
      rw [if_neg hne]
      exact mem_singleton_self _
    have hnl : ∀ name ∈ r.state.labels.waiting, '\n' ∉ name := by
      intro name hname
      obtain ⟨i, _, hi⟩ := hwait name hname
      rw [hi]
      exact newline_not_mem_name .label i
    have hemits := emits_whole hparts hstop hF
      fun F' L' f fs hF' hd hL' => Clauses.emits cs hw hf
        (fun t ht hs => ⟨t, mem_append.mpr (.inr ht), hs⟩) F' L' f fs hF' hd (by rw [hL']; exact hnl)
    have hrun := hemits lines r number hl (by rw [← hl]; exact hplain) hpending rfl rfl
    cases hs : r.sourceLines number lines with
    | error halt =>
      rw [hs] at hrun
      exact hrun
    | ok r' =>
      rw [hs] at hrun
      obtain ⟨hp', hF', hL', hout⟩ := hrun
      refine ⟨hp', hF', hout, ?_⟩
      intro name hname
      rw [labels_of_switch] at hname
      rcases mem_append.mp hname with hold | hnew
      · have hmem : name ∈ r.state.pendingLabel :=
          Clauses.mem_of_mem_takes (Option.mem_toList.mp hold)
        exact .inl hmem.symm
      · obtain ⟨i, hi, rfl⟩ := mem_map.mp hnew
        have hlast : r'.state.names.label = r.state.names.label + cs.jumps := congrArg Labels.jumps hL'
        obtain ⟨hlow, hhigh⟩ := mem_range'_1.mp hi
        exact .inr ⟨i, hlow, by rw [hlast]; exact hhigh, rfl⟩
  · intro ρ pre post h hnodup
    obtain ⟨_, _, hstart⟩ := Clauses.reaches hnodup cs hf
    exact hstart.switch (suffix_append _ _) h

/-- A switch without a value, in the body of a clause. -/
def innerClauses : Clauses :=
  .case 2 [" y > 0"] (.statement ["g()"] .done) true (.default 3 (.statement ["h()"] .done))

/-- Clauses that fall through, around another switch. -/
def outerClauses : Clauses :=
  .case 0 [" 1", " 2"] (.statement ["fmt.Println(\"a\")"] .done) true
    (.case 1 [" 3"] (.switch (some " y := f()") " " innerClauses .done) false
      (.default 4 (.statement ["k()"] .done)))

theorem written_outerClauses : outerClauses.Written := by
  have hinner : innerClauses.Written :=
    ⟨by decide, ⟨.simple (by decide), by decide, trivial⟩, .simple (by decide), by decide, trivial⟩
  exact ⟨by decide, ⟨.simple (by decide), by decide, trivial⟩,
    ⟨by decide, ⟨by decide, hinner, trivial⟩, .simple (by decide), by decide, trivial⟩⟩

theorem switch_meaning_nested :
    ∃ r', insideMain.sourceLines 7 (switchText none " x " :: (outerClauses.texts ++ [("\x7d" : Text)]))
        = .ok r' ∧ Rendered (switchCode 0 0 none none " x " outerClauses) r'.output ∧
      ∀ ρ : Oracle, Cpp.Reaches ρ (switchCode 0 0 none none " x " outerClauses)
        ⟨false, switchCode 0 0 none none " x " outerClauses, []⟩
        ⟨false, [], outerClauses.select ρ 1 (some "_s__0") [.bind "_s__0" "x"]⟩ := by
  have hfalls : outerClauses.Falls := by simp [outerClauses, innerClauses, Clauses.Falls, Body.Falls]
  have hF : insideMain.state.frames.Below insideMain.state.depth := ⟨rfl, by decide, by decide, by decide⟩
  obtain ⟨hrun, hreaches, hnodup, _⟩ := @switch_meaning insideMain 7
    (switchText none " x " :: (outerClauses.texts ++ [("\x7d" : Text)])) none " x " outerClauses
    (by decide) written_outerClauses hfalls rfl (by decide) rfl hF (by decide) _ rfl
  obtain ⟨r', h⟩ : ∃ r', insideMain.sourceLines 7
      (switchText none " x " :: (outerClauses.texts ++ [("\x7d" : Text)])) = .ok r' :=
    exists_ok_of_isOk (by decide +kernel)
  rw [h] at hrun
  obtain ⟨_, _, ⟨ls, hout, hren⟩, _⟩ := hrun
  refine ⟨r', h, by rw [hout]; exact hren, fun ρ => ?_⟩
  have := hreaches ρ [] [] [] (by rw [nil_append, append_nil]; exact hnodup)
  rw [nil_append, append_nil] at this
  exact this

end Linewise
