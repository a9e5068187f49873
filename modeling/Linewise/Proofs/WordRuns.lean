/-
  Whole words are tokens.

  A text is cut into its maximal runs of word characters and its other characters one by one. What the
  scans for a word accept are the tokens that spell it with neither a dot nor a colon right before
  them.
-/
import Mathlib.Data.List.SplitBy
import Linewise.Proofs.ConstLiterals

namespace Linewise

open Text List

variable {a b s t word : Text} {before after : Option Char} {ts : List Text}

/-! ## 1. Tokens -/

/-- The characters belong to one word if they are neighbours. -/
def sameWord (c d : Char) : Bool := isWordChar c && isWordChar d

/-- The maximal runs of word characters, and every other character by itself. -/
def tokens (s : Text) : List Text := s.splitBy sameWord

/-- Neither a dot nor a colon ties what follows to what stands before it. -/
def isFree (before : Option Char) : Bool := before.all fun c => c != '.' && c != ':'

/-- The tokens put together, with the replacement for every free token that is the word. -/
def replaceTokens (word replacement : Text) : Option Char → List Text → Text
  | _, [] => []
  | before, t :: ts =>
    (if t = word ∧ isFree before = true then replacement else t)
      ++ replaceTokens word replacement t.getLast? ts

/-- Some token is the word, and it is free. -/
def HasFreeToken (word s : Text) : Prop :=
  ∃ pre post, tokens s = pre ++ word :: post ∧ isFree pre.flatten.getLast? = true

/-- What the tokens of a text have in common. -/
structure AreTokens (ts : List Text) : Prop where
  ne_nil : [] ∉ ts
  run : ∀ t ∈ ts, t.IsChain fun c d => sameWord c d
  apart : ts.IsChain fun a b => ∃ ha hb, sameWord (a.getLast ha) (b.head hb) = false

theorem areTokens_tokens (s : Text) : AreTokens (tokens s) :=
  ⟨nil_notMem_splitBy _ s, fun _ => isChain_of_mem_splitBy, isChain_getLast_head_splitBy _ s⟩

theorem AreTokens.tail (h : AreTokens (t :: ts)) : AreTokens ts :=
  ⟨fun hm => h.ne_nil (mem_cons_of_mem t hm), (forall_mem_cons.mp h.run).2, h.apart.tail⟩

theorem AreTokens.parted {pre post : List Text} (h : AreTokens (pre ++ post)) :
    Parted pre.flatten post.flatten := by
  intro c hc d hd
  rcases eq_nil_or_concat' pre with rfl | ⟨pre, x, rfl⟩
  · cases hc
  · cases post with
    | nil => cases hd
    | cons y post =>
      obtain ⟨hx, hy, hxy⟩ := (isChain_append.mp h.apart).2.2 x getLast?_concat y rfl
      rw [flatten_append, flatten_singleton, getLast?_append_of_ne_nil _ hx] at hc
      rw [flatten_cons, head?_append, head?_eq_some_head hy] at hd
      rw [getLast?_eq_some_getLast hx] at hc
      cases hc
      cases hd
      exact Bool.and_eq_false_iff.mp hxy

/-! ## 2. One word -/

section Word

variable (hne : word ≠ []) (hword : ∀ c ∈ word, isWordChar c = true)

include hne hword

theorem isWord_of_forall : IsWord word :=
  ⟨hne, fun c hc => by simp [isPathChar, hword c hc]⟩

theorem standsAlone_iff : standsAlone word before after = true ↔
    isFree before = true ∧ (∀ c ∈ before, isWordChar c = false) ∧ ∀ c ∈ after, isWordChar c = false := by
  have hlast : word.getLast?.any isWordChar = true := by
    rw [getLast?_eq_some_getLast hne]
    exact hword _ (getLast_mem hne)
  unfold standsAlone isFree
  rw [hlast]
  cases before <;> cases after <;> simp [and_comm, and_assoc, and_left_comm]

theorem eq_of_standsAlone (h : t.IsChain fun c d => sameWord c d) (ht : t = a ++ (word ++ b))
    (hs : standsAlone word (a.getLast?.or before) b.head? = true) : t = word := by
  obtain ⟨_, hbefore, hafter⟩ := (standsAlone_iff hne hword).mp hs
  rw [ht] at h
  have hwb := isChain_append.mp (isChain_append.mp h).2.1
  have ha : a = [] := by
    refine Classical.byContradiction fun hane => ?_
    have hrun := (isChain_append.mp h).2.2 _ (getLast?_eq_some_getLast hane) (word.head hne)
      (by rw [head?_append, head?_eq_some_head hne]; rfl)
    have hno := hbefore (a.getLast hane) (by rw [getLast?_eq_some_getLast hane]; rfl)
    rw [sameWord, hno] at hrun
    cases hrun
  have hb : b = [] := by
    refine Classical.byContradiction fun hbne => ?_
    have hrun := hwb.2.2 _ (getLast?_eq_some_getLast hne) _ (head?_eq_some_head hbne)
    rw [sameWord, hafter _ (head?_eq_some_head hbne), Bool.and_false] at hrun
    cases hrun
  rw [ht, ha, hb, nil_append, append_nil]

theorem replaceFrom_token (replacement : Text) (h : t.IsChain fun c d => sameWord c d)
    (hbefore : ∀ c ∈ before, ∀ d ∈ t.head?, isWordChar c = false ∨ isWordChar d = false) :
    replaceFrom word replacement 0 before t
      = if t = word ∧ isFree before = true then replacement else t := by
  by_cases ht : t = word
  · subst ht
    have hno : ∀ c ∈ before, isWordChar c = false := fun c hc =>
      (hbefore c hc _ (head?_eq_some_head hne)).resolve_right (by rw [hword _ (head_mem hne)]; nofun)
    have hstands : standsAlone t before none = true ↔ isFree before = true := by
      rw [standsAlone_iff hne hword]
      exact ⟨And.left, fun hf => ⟨hf, hno, nofun⟩⟩
    have := replaceFrom_symbol hne replacement before []
    rw [append_nil, replaceFrom, append_nil, head?_nil] at this
    rw [this]
    simp only [hstands, true_and]
  · rw [if_neg fun h => ht h.1]
    have habsent : containsFrom word 0 before t = false := by
      refine Bool.eq_false_iff.mpr fun hc => ht ?_
      obtain ⟨a, b, hab, hs⟩ := (containsFrom_iff (isWord_of_forall hne hword) 0 before t
        (fun c hc => absurd hc (by simp)) fun h => absurd rfl h).mp hc
      exact eq_of_standsAlone hne hword h hab hs
    exact replaceFrom_eq_drop hne replacement habsent

/-- The scan goes from token to token. -/
theorem replaceFrom_flatten (replacement : Text) (h : AreTokens ts)
    (hbefore : ∀ c ∈ before, ∀ d ∈ ts.flatten.head?, isWordChar c = false ∨ isWordChar d = false) :
    replaceFrom word replacement 0 before ts.flatten = replaceTokens word replacement before ts := by
  induction ts generalizing before with
  | nil => rfl
  | cons t ts ih =>
    have htne : t ≠ [] := fun e => h.ne_nil (e ▸ mem_cons_self)
    have hparted : Parted t ts.flatten := by
      have hsplit : AreTokens ([t] ++ ts) := h
      simpa using hsplit.parted
    have hhead : ∀ d ∈ t.head?, d ∈ (t :: ts).flatten.head? := by
      intro d hd
      rw [flatten_cons, head?_append, Option.mem_def.mp hd]
      rfl
    have hlast : t.getLast?.or before = t.getLast? := by
      rw [getLast?_eq_some_getLast htne]
      rfl
    rw [flatten_cons, replaceFrom_append hword hne replacement hparted, hlast, ih h.tail hparted,
      replaceFrom_token hne hword replacement (h.run t mem_cons_self) fun c hc d hd => hbefore c hc d (hhead d hd)]
    rfl

theorem containsWord_iff_token : containsWord s word = true ↔ HasFreeToken word s := by
  rw [containsWord_iff (isWord_of_forall hne hword)]
  constructor
  · rintro ⟨a, b, rfl, hs⟩
    obtain ⟨hfree, hbefore, hafter⟩ := (standsAlone_iff hne hword).mp hs
    have hchain : word.IsChain fun c d => sameWord c d :=
      (pairwise_of_forall_mem_list fun c hc d hd => by rw [sameWord, hword c hc, hword d hd]; rfl).isChain
    refine ⟨tokens a, tokens b, ?_, ?_⟩
    · unfold tokens
      rw [splitBy_append fun c hc d _ => by rw [sameWord, hbefore c hc, Bool.false_and],
        splitBy_append fun c _ d hd => by rw [sameWord, hafter d hd, Bool.and_false],
        splitBy_of_isChain hne hchain]
      rfl
    · rw [tokens, flatten_splitBy]
      exact hfree
  · rintro ⟨pre, post, htokens, hfree⟩
    have h := areTokens_tokens s
    rw [htokens] at h
    have hbefore := h.parted
    have hafter : Parted word post.flatten := by
      have h' : AreTokens ((pre ++ [word]) ++ post) := by rwa [append_assoc]
      have := h'.parted
      rw [flatten_append, flatten_singleton] at this
      exact this.of_append
    refine ⟨pre.flatten, post.flatten, ?_, (standsAlone_iff hne hword).mpr ⟨hfree, ?_, ?_⟩⟩
    · rw [← flatten_splitBy sameWord s, show s.splitBy sameWord = _ from htokens, flatten_append, flatten_cons]
    · intro c hc
      refine (hbefore c hc (word.head hne) ?_).resolve_right (by rw [hword _ (head_mem hne)]; nofun)
      rw [flatten_cons, head?_append, head?_eq_some_head hne]
      rfl
    · intro d hd
      exact (hafter _ (getLast?_eq_some_getLast hne) d hd).resolve_left (by rw [hword _ (getLast_mem hne)]; nofun)

end Word

/-! ## 3. What replacing changes -/

theorem length_replaceFrom (hne : word ≠ []) (replacement : Text) : ∀ (skip : Nat) (before : Option Char), ∃ n,
    (replaceFrom word replacement skip before s).length + n * word.length
      = (s.drop skip).length + n * replacement.length := by
  induction s with
  | nil =>
    intro skip before
    refine ⟨0, ?_⟩
    rw [drop_nil, Nat.zero_mul, Nat.zero_mul]
    cases skip <;> rfl
  | cons c r ih =>
    intro skip before
    cases skip with
    | succ skip => exact ih skip (some c)
    | zero =>
      rw [replaceFrom, drop_zero]
      split
      · rename_i hs
        obtain ⟨n, hn⟩ := ih (word.length - 1) (some c)
        have hpos := length_pos_iff.mpr hne
        have hle := (List.isPrefixOf_iff_prefix.mp hs).length_le
        rw [length_drop] at hn
        rw [length_cons] at hle
        split
        · refine ⟨n + 1, ?_⟩
          rw [length_append, length_cons, Nat.succ_mul, Nat.succ_mul]
          omega
        · refine ⟨n, ?_⟩
          rw [length_append, length_cons]
          omega
      · obtain ⟨n, hn⟩ := ih 0 (some c)
        refine ⟨n, ?_⟩
        rw [drop_zero] at hn
        rw [length_cons, length_cons]
        omega

theorem replaceWord_ne (hne : word ≠ []) (hword : ∀ c ∈ word, isWordChar c = true) {replacement : Text}
    (hr : replacement ≠ word) (h : Stands word s) : replaceWord s word replacement ≠ s := by
  obtain ⟨a, b, rfl, hs⟩ := h
  obtain ⟨_, hbefore, _⟩ := (standsAlone_iff hne hword).mp hs
  intro he
  unfold replaceWord at he
  rw [replaceFrom_append hword hne replacement fun c hc _ _ => .inl (hbefore c hc), Option.or_none,
    replaceFrom_symbol hne, if_pos hs] at he
  obtain ⟨n, hn⟩ := length_replaceFrom (s := a) hne replacement 0 none
  obtain ⟨m, hm⟩ := length_replaceFrom (s := b) hne replacement 0 word.getLast?
  rw [drop_zero] at hn hm
  have hlen := congrArg length he
  simp only [length_append] at hlen
  have heq : replacement.length = word.length := by
    refine Nat.eq_of_mul_eq_mul_left (Nat.succ_pos (n + m)) ?_
    rw [Nat.succ_mul, Nat.succ_mul, Nat.add_mul, Nat.add_mul]
    omega
  rw [heq] at hn
  exact hr (append_inj (append_inj he (by omega)).2 heq).1

/-- **Searching for a word and replacing it are operations on tokens**, for every text and every word of word
    characters: the replacement stands for the free tokens that are the word and for nothing else, the word is
    found exactly if there is such a token, and replacing it by anything else changes the text exactly then. -/
theorem replaceWord_eq_replaceTokens (s replacement : Text) (word : Text) (hne : word ≠ [])
    (hword : ∀ c ∈ word, isWordChar c = true) :
    replaceWord s word replacement = replaceTokens word replacement none (tokens s) ∧
      (containsWord s word = true ↔ HasFreeToken word s) ∧
      (replacement ≠ word → (containsWord s word = true ↔ replaceWord s word replacement ≠ s)) := by
  refine ⟨?_, containsWord_iff_token hne hword, fun hr => ⟨fun h => ?_, fun h => ?_⟩⟩
  · have hscan : replaceFrom word replacement 0 none (tokens s).flatten
        = replaceTokens word replacement none (tokens s) :=
      replaceFrom_flatten hne hword replacement (areTokens_tokens s) nofun
    rwa [tokens, flatten_splitBy] at hscan
  · exact replaceWord_ne hne hword hr ((containsWord_iff (isWord_of_forall hne hword) s).mp h)
  · refine Bool.not_eq_false _ |>.mp fun hc => h ?_
    have habsent : containsFrom word 0 none s = false := hc
    exact replaceFrom_eq_drop hne replacement habsent

/-- Of four spellings the last is free: one is longer, one goes on, one is a member. -/
theorem replaceWord_eq_replaceTokens_iota : (∀ c ∈ ("iota" : Text), isWordChar c = true) ∧
    replaceWord "xiota iotas x.iota -iota" "iota" "0" = "xiota iotas x.iota -0" := by
  have hword : ∀ c ∈ ("iota" : Text), isWordChar c = true := by decide
  refine ⟨hword, ?_⟩
  rw [(replaceWord_eq_replaceTokens "xiota iotas x.iota -iota" "0" "iota" (by decide) hword).1]
  decide

end Linewise
