/-
  The header of a function is one line.

  What is written for a signature adds no newline to what is cut out of its line.
-/
import Linewise.Proofs.Emission
import Linewise.Proofs.Signatures

namespace Linewise

open Text List Parameter

variable {a b q s t : Text}

/-! ## 1. Parts of a text -/

namespace Text

theorem trim_subset (s : Text) : trim s ⊆ s := fun _ => mem_of_mem_trim

theorem stripStart?_subset {head r : Text} (h : stripStart? head s = some r) : r ⊆ s := by
  rw [eq_append_of_stripStart? h]
  exact subset_append_right _ _

theorem trimStart_subset (s : Text) : trimStart s ⊆ s := (dropWhile_suffix _).subset

theorem stripStart_subset (head s : Text) : stripStart head s ⊆ s := by
  unfold stripStart
  cases h : stripStart? head s with
  | none => exact Subset.refl s
  | some r => exact stripStart?_subset h

theorem stripEnd_subset (tail s : Text) : stripEnd tail s ⊆ s := by
  unfold stripEnd
  cases h : stripEnd? tail s with
  | none => exact Subset.refl s
  | some r =>
    rw [eq_append_of_stripEnd? h]
    exact subset_append_left _ _

theorem dropEndWhile_subset (p : Char → Bool) (s : Text) : dropEndWhile p s ⊆ s :=
  IsPrefix.subset <| rdropWhile_prefix p s

theorem splitOnce?_subset {p : Char → Bool} (h : splitOnce? p s = some (a, b)) : a ⊆ s ∧ b ⊆ s := by
  obtain ⟨c, _, rfl⟩ := eq_append_of_splitOnce? h
  exact ⟨subset_append_left _ _, fun d hd => mem_append_right _ (mem_cons_of_mem c hd)⟩

end Text

theorem enclosed?_subset (h : enclosed? s = some (a, b)) : a ⊆ s ∧ b ⊆ s := by
  obtain ⟨i, _, hab⟩ := Option.map_eq_some_iff.mp h
  obtain ⟨rfl, rfl⟩ := Prod.mk.inj hab
  exact ⟨fun c hc => mem_of_mem_take (mem_of_mem_drop hc), fun c hc => mem_of_mem_drop hc⟩

/-- What a written type starts with. -/
def typeHeads : List Text := ["*", "[]", "...", "map", "func"]

/-- A property passed on to all that is cut out of a type or a list of parameters. -/
structure Sheds (Q : Text → Prop) : Prop where
  nil : Q []
  trim : ∀ {s}, Q s → Q (trim s)
  behind : ∀ {head s t}, head ∈ typeHeads → stripStart? head s = some t → Q s → Q t
  enclosed : ∀ {o k s a b}, closer? o = some k → startsWith s [o] = true → enclosed? s = some (a, b) → Q s → Q a ∧ Q b
  typed : ∀ {s a b}, splitOnce? isBlank s = some (a, b) → isIdentifier a = true → Q s → Q a ∧ Q b
  part : ∀ {s t}, t ∈ splitTop ',' s → Q s → Q t
  bodiless : ∀ {s}, Q s → Q (stripEnd "\x7b" s)

theorem sheds_not_mem (c : Char) : Sheds (c ∉ ·) where
  nil := not_mem_nil
  trim h hc := h (mem_of_mem_trim hc)
  behind _ hs h hc := h (stripStart?_subset hs hc)
  enclosed _ _ he h := ⟨fun hc => h ((enclosed?_subset he).1 hc), fun hc => h ((enclosed?_subset he).2 hc)⟩
  typed hs _ h := ⟨fun hc => h ((splitOnce?_subset hs).1 hc), fun hc => h ((splitOnce?_subset hs).2 hc)⟩
  part ht h hc := h ((infix_of_mem_splitTop ht).subset hc)
  bodiless h hc := h (stripEnd_subset _ _ hc)

namespace Sheds

variable {Q : Text → Prop} (hQ : Sheds Q)

include hQ

theorem listFrom {parts : List Text} :
    ∀ {pending : List Text}, (∀ q ∈ pending, Q q) → (∀ q ∈ parts, Q q) →
      ∀ p ∈ listFrom pending parts, Q p.name ∧ Q p.type := by
  induction parts with
  | nil =>
    intro pending hp _ p h
    obtain ⟨t, ht, rfl⟩ := mem_map.mp h
    exact ⟨hQ.nil, hp t ht⟩
  | cons part parts ih =>
    intro pending hp hq p h
    obtain ⟨hpart, hrest⟩ := forall_mem_cons.mp hq
    have hpend : ∀ q ∈ pending ++ [part], Q q := forall_mem_append.mpr ⟨hp, forall_mem_singleton.mpr hpart⟩
    unfold Parameter.listFrom at h
    split at h
    · rename_i name type hs
      split at h
      · rename_i hid
        obtain ⟨hname, htype⟩ := hQ.typed hs hid hpart
        rcases mem_append.mp h with h | h
        · obtain ⟨t, ht, rfl⟩ := mem_map.mp h
          exact ⟨hp t ht, hQ.trim htype⟩
        · rcases mem_cons.mp h with rfl | h
          · exact ⟨hname, hQ.trim htype⟩
          · exact ih (forall_mem_nil _) hrest p h
      · exact ih hpend hrest p h
    · exact ih hpend hrest p h

theorem list (h : Q s) : ∀ p ∈ list s, Q p.name ∧ Q p.type := hQ.listFrom nofun fun _ hq => hQ.part hq h

theorem resultTypes (h : Q s) : ∀ t ∈ resultTypes s, Q t := by
  intro t ht
  have hs := hQ.trim (hQ.bodiless (hQ.trim h))
  unfold Linewise.resultTypes at ht
  dsimp only at ht
  split at ht
  · cases ht
  · split at ht
    · rename_i inside _ he
      split at he
      · rename_i hround
        obtain ⟨p, hp, rfl⟩ := mem_map.mp ht
        exact (hQ.list (hQ.enclosed (o := '(') rfl hround he hs).1 p hp).2
      · cases he
    · rwa [mem_singleton.mp ht]

theorem mapType {k v : Text} (h : Q s) (hm : splitMapType? s = some (k, v)) : Q k ∧ Q v := by
  obtain ⟨r, hr, hm⟩ := Option.bind_eq_some_iff.mp hm
  split at hm
  · rename_i hsquare
    obtain ⟨⟨key, rest⟩, he, hm⟩ := Option.bind_eq_some_iff.mp hm
    obtain ⟨hkey, hrest⟩ := hQ.enclosed (o := '[') rfl hsquare he (hQ.behind (by decide) hr (hQ.trim h))
    dsimp only at hm
    split at hm
    · cases hm
    · cases hm
      exact ⟨hkey, hQ.trim hrest⟩
  · cases hm

theorem funcType (h : Q s) (hf : splitFuncType? s = some (a, b)) : Q a ∧ Q b := by
  obtain ⟨r, hr, hf⟩ := Option.bind_eq_some_iff.mp hf
  split at hf
  · rename_i hround
    exact hQ.enclosed (o := '(') rfl hround hf (hQ.behind (by decide) hr h)
  · cases hf

theorem arrayType {n e : Text} (h : Q s) (ha : splitArrayType? s = some (n, e)) : Q n ∧ Q e := by
  unfold splitArrayType? at ha
  split at ha
  · rename_i hsquare
    obtain ⟨⟨size, rest⟩, he, ha⟩ := Option.map_eq_some_iff.mp ha
    obtain ⟨hsize, hrest⟩ := hQ.enclosed (o := '[') rfl hsquare he h
    cases ha
    exact ⟨hQ.trim hsize, hrest⟩
  · cases ha

end Sheds

/-! ## 2. Spellings -/

namespace GoType

/-- The texts of a written type that are no types themselves. -/
def Shape.words : Shape → List Text
  | .named name => [name]
  | .array size _ => [size]
  | _ => []

/-- **The parts of a type are shed by it.** -/
theorem parts_shed {Q : Text → Prop} (hQ : Sheds Q) (h : Q s) (ht : t ∈ (shape s).parts ++ (shape s).words) :
    Q t := by
  have hs := hQ.trim h
  unfold GoType.shape at ht
  dsimp only at ht
  split at ht
  · rename_i hp
    rw [mem_singleton.mp ht]
    exact hQ.behind (by decide) hp hs
  · split at ht
    · rename_i hslice
      rw [mem_singleton.mp ht]
      rcases Option.or_eq_some_iff.mp hslice with hslice | ⟨_, hslice⟩ <;> exact hQ.behind (by decide) hslice hs
    · split at ht
      · rename_i key value hm
        obtain ⟨hkey, hvalue⟩ := hQ.mapType hs hm
        rcases mem_cons.mp ht with rfl | ht
        · exact hkey
        · rwa [mem_singleton.mp ht]
      · split at ht
        · rename_i params results hf
          obtain ⟨hparams, hresults⟩ := hQ.funcType hs hf
          rw [show Shape.words (.func _ _) = [] from rfl, append_nil] at ht
          rcases mem_append.mp ht with ht | ht
          · obtain ⟨p, hp, rfl⟩ := mem_map.mp ht
            exact (hQ.list hparams p hp).2
          · exact hQ.resultTypes hresults t ht
        · split at ht
          · rename_i size element ha
            obtain ⟨hsize, helement⟩ := hQ.arrayType hs ha
            rcases mem_cons.mp ht with rfl | ht
            · exact helement
            · rwa [mem_singleton.mp ht]
          · rwa [mem_singleton.mp ht]

/-- What a spelling puts around a part. -/
def frames : List (Text × Text) :=
  [([], "*"), ("std::vector<", ">"), ("std::array<", ">"), ("std::unordered_map<", ">"), ("std::function<", ">"),
    ("std::tuple<", ">")]

/-- A property that goes from a type to its parts, and from spelled parts to the spelling. -/
structure Composes (Q : Text → Prop) : Prop extends Sheds Q where
  primitive : ∀ p ∈ primitives, Q p.2
  void : Q "void"
  frame : ∀ {t}, ∀ f ∈ frames, Q t → Q (f.1 ++ t ++ f.2)
  pair : ∀ {a b}, Q a → Q b → Q (a ++ ", " ++ b)
  call : ∀ {r ps}, Q r → Q ps → Q (r ++ "(" ++ ps ++ ")")

namespace Composes

variable {Q : Text → Prop} (hQ : Composes Q)

include hQ

theorem cppName {name : Text} (h : Q name) : Q (cppName name) := by
  unfold GoType.cppName
  cases hl : primitives.lookup name with
  | none => exact h
  | some spelled =>
    obtain ⟨a, b, hp, _⟩ := lookup_eq_some_iff.mp hl
    exact hQ.primitive (name, spelled) (by rw [hp]; simp)

theorem joined {ts : List Text} (h : ∀ t ∈ ts, Q t) : Q (joinWith ", " ts) := by
  induction ts with
  | nil => exact hQ.nil
  | cons t ts ih =>
    obtain ⟨ht, hts⟩ := forall_mem_cons.mp h
    cases ts with
    | nil => rwa [joinWith_singleton]
    | cons u us =>
      rw [joinWith_cons_cons, ← append_assoc]
      exact hQ.pair ht (ih hts)

theorem resultSpelling {ts : List Text} (h : ∀ t ∈ ts, Q t) : Q (resultSpelling ts) := by
  unfold GoType.resultSpelling
  split
  · exact hQ.void
  · exact h _ mem_cons_self
  · exact hQ.frame ("std::tuple<", ">") (by decide) (hQ.joined h)

theorem cppType (h : Q s) : Q (cppType s) := by
  induction hn : s.length using Nat.strongRecOn generalizing s with
  | ind n ih =>
    subst hn
    have hpart : ∀ t ∈ (shape s).parts, Q (Linewise.cppType t) := fun t ht =>
      ih t.length (length_of_mem_parts ht) (parts_shed hQ.toSheds h (mem_append_left _ ht)) rfl
    have hword : ∀ t ∈ (shape s).words, Q t := fun t ht => parts_shed hQ.toSheds h (mem_append_right _ ht)
    cases hs : shape s with
    | named name =>
      rw [hs] at hword
      rw [cppType_named hs]
      exact hQ.cppName (hword name mem_cons_self)
    | pointer t =>
      rw [hs] at hpart
      rw [cppType_pointer hs]
      exact hQ.frame ([], "*") (by decide) (hpart t mem_cons_self)
    | slice t =>
      rw [hs] at hpart
      rw [cppType_slice hs]
      exact hQ.frame ("std::vector<", ">") (by decide) (hpart t mem_cons_self)
    | array size t =>
      rw [hs] at hpart hword
      have hall := hQ.frame ("std::array<", ">") (by decide)
        (hQ.pair (hpart t mem_cons_self) (hword size mem_cons_self))
      rw [cppType_array hs]
      simpa only [append_assoc] using hall
    | map k v =>
      rw [hs] at hpart
      have hall := hQ.frame ("std::unordered_map<", ">") (by decide)
        (hQ.pair (hpart k mem_cons_self) (hpart v (mem_cons_of_mem k mem_cons_self)))
      rw [cppType_map hs]
      simpa only [append_assoc] using hall
    | func ps rs =>
      rw [hs] at hpart
      obtain ⟨hparams, hresults⟩ := forall_mem_append.mp hpart
      have hall := hQ.frame ("std::function<", ">") (by decide)
        (hQ.call (hQ.resultSpelling (forall_mem_map.mpr hresults)) (hQ.joined (forall_mem_map.mpr hparams)))
      rw [cppType_func hs, show (")>" : Text) = ")" ++ ">" from rfl]
      simpa only [append_assoc, cppResult] using hall

end Composes

/-- The texts that a spelling is made of, names apart. -/
def spellingTexts : List Text :=
  (["void", ", ", "(", ")"] : List Text) ++ primitives.map (·.2) ++ frames.map (·.1) ++ frames.map (·.2)

theorem composes_not_mem {c : Char} (hc : ∀ t ∈ spellingTexts, c ∉ t) : Composes (c ∉ ·) where
  toSheds := sheds_not_mem c
  primitive p hp := hc p.2 (by simp [spellingTexts, hp, mem_map_of_mem])
  void := hc _ (by decide)
  frame f hf ht := not_mem_append (not_mem_append (hc f.1 (by simp [spellingTexts, hf, mem_map_of_mem])) ht)
    (hc f.2 (by simp [spellingTexts, hf, mem_map_of_mem]))
  pair ha hb := not_mem_append (not_mem_append ha (hc _ (by decide))) hb
  call hr hp := not_mem_append (not_mem_append (not_mem_append hr (hc _ (by decide))) hp) (hc _ (by decide))

theorem composes_newline : Composes ('\n' ∉ ·) := composes_not_mem (by decide +kernel)

theorem newline_not_mem_cppType (h : '\n' ∉ s) : '\n' ∉ cppType s := composes_newline.cppType h

end GoType

namespace Signature

variable {c : Char}

theorem not_mem_paramsAndResults (h : c ∉ s) :
    (∀ p ∈ (paramsAndResults s).1, c ∉ p.name ∧ c ∉ p.type) ∧ ∀ t ∈ (paramsAndResults s).2, c ∉ t := by
  unfold paramsAndResults
  cases he : enclosed? s with
  | none => exact ⟨nofun, nofun⟩
  | some pair =>
    obtain ⟨params, rest⟩ := pair
    obtain ⟨hparams, hrest⟩ := enclosed?_subset he
    refine ⟨(sheds_not_mem c).list fun hc => h (hparams hc), (sheds_not_mem c).resultTypes fun hc => h (hrest ?_)⟩
    split at hc
    · exact mem_of_mem_take hc
    · exact hc

theorem not_mem_parse {line : Text} (h : c ∉ line) :
    c ∉ (parse line).name ∧ (∀ p ∈ (parse line).params, c ∉ p.name ∧ c ∉ p.type) ∧
      ∀ t ∈ (parse line).results, c ∉ t := by
  have hrest : c ∉ trimStart (stripStart "func" line) := fun hc =>
    h (stripStart_subset _ _ (trimStart_subset _ hc))
  unfold parse
  dsimp only
  generalize trimStart (stripStart "func" line) = rest at hrest
  cases rest.idxOf? '(' with
  | none => exact ⟨fun hc => hrest (dropEndWhile_subset _ _ (mem_of_mem_trim hc)), nofun, nofun⟩
  | some i =>
    exact ⟨fun hc => hrest (mem_of_mem_take (mem_of_mem_trim hc)),
      not_mem_paramsAndResults fun hc => hrest (mem_of_mem_drop hc)⟩

theorem newline_not_mem_cpp {line : Text} (h : '\n' ∉ line) : '\n' ∉ (parse line).cpp := by
  obtain ⟨hname, hparams, hresults⟩ := not_mem_parse h
  have hparam : ∀ t ∈ (parse line).params.map Parameter.cpp, '\n' ∉ t := by
    intro t ht
    obtain ⟨p, hp, rfl⟩ := mem_map.mp ht
    have htype : '\n' ∉ cppType p.type := GoType.newline_not_mem_cppType (hparams p hp).2
    unfold Parameter.cpp
    split
    · exact htype
    · exact not_mem_append (not_mem_append htype (by decide)) (hparams p hp).1
  have hresult : '\n' ∉ cppResult (parse line).results := by
    refine GoType.composes_newline.resultSpelling fun t ht => ?_
    obtain ⟨r, hr, rfl⟩ := mem_map.mp ht
    exact GoType.newline_not_mem_cppType (hresults r hr)
  refine not_mem_append (not_mem_append (not_mem_append (not_mem_append
    (not_mem_append (by decide) hname) (by decide)) ?_) (by decide)) ?_
  · exact newline_not_mem_joinWith (by decide) hparam
  · split
    · decide
    · exact hresult

end Signature

end Linewise
