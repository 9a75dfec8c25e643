import Aqueduct.Broker.Topic

/-!
Wildcard filters level by level. A filter and a topic are lists of levels
between `/`; `levelsMatch` compares them one by one, as `MatchWildcard` of
`internal/broker/wildcard.go` describes itself. The matcher works on bytes and
takes an exhausted topic for one that has no level left. That is wrong behind a
`/` and for the empty topic, where an empty level is left and `+` should match
it (`wildcard_match_iff`).
-/

namespace Aqueduct.Broker

open ByteStr

/-! ## Levels -/

def levelsOf (s : Bytes) : List Bytes := s.splitOn byteSlash

theorem levelsOf_single {l : Bytes} (h : byteSlash ∉ l) : levelsOf l = [l] :=
  List.splitOn_eq_singleton h

theorem levelsOf_cons {l : Bytes} (h : byteSlash ∉ l) (s : Bytes) :
    levelsOf (l ++ byteSlash :: s) = l :: levelsOf s :=
  List.splitOn_append_cons_self_of_not_mem h s

theorem levelsOf_ne_nil (s : Bytes) : levelsOf s ≠ [] := List.splitOn_ne_nil byteSlash s

theorem levelsOf_cases (s : Bytes) :
    byteSlash ∉ s ∨ ∃ l rest, s = l ++ byteSlash :: rest ∧ byteSlash ∉ l := by
  by_cases h : byteSlash ∈ s
  · exact .inr (List.eq_append_cons_of_mem h)
  · exact .inl h

theorem levelsOf_induction {P : Bytes → Prop} (single : ∀ l, byteSlash ∉ l → P l)
    (cons : ∀ l s, byteSlash ∉ l → P s → P (l ++ byteSlash :: s)) (s : Bytes) : P s := by
  induction hn : s.length using Nat.strong_induction_on generalizing s with
  | _ n ih =>
    rcases levelsOf_cases s with h | ⟨l, rest, rfl, h⟩
    · exact single s h
    · refine cons l rest h (ih rest.length ?_ rest rfl)
      rw [← hn, List.length_append, List.length_cons]
      omega

/-- Levels match one by one; `+` matches any level, a final `#` any number of
them. -/
def levelsMatch : List Bytes → List Bytes → Bool
  | [], ts => ts.isEmpty
  | f :: fs, ts =>
    if f = [byteHash] ∧ fs = [] then true
    else
      match ts with
      | [] => false
      | t :: ts => (f = [bytePlus] ∨ f = t) && levelsMatch fs ts

/-- `+` only as a whole level, `#` only as the whole last level. -/
structure IsFilter (filter : Bytes) : Prop where
  plus : ∀ l ∈ levelsOf filter, bytePlus ∈ l → l = [bytePlus]
  hash : ∀ l ∈ levelsOf filter, byteHash ∈ l → l = [byteHash]
  last : ∀ l ∈ (levelsOf filter).dropLast, byteHash ∉ l

instance (filter : Bytes) : Decidable (IsFilter filter) :=
  decidable_of_iff ((∀ l ∈ levelsOf filter, bytePlus ∈ l → l = [bytePlus]) ∧
      (∀ l ∈ levelsOf filter, byteHash ∈ l → l = [byteHash]) ∧
      ∀ l ∈ (levelsOf filter).dropLast, byteHash ∉ l)
    ⟨fun h => ⟨h.1, h.2.1, h.2.2⟩, fun h => ⟨h.plus, h.hash, h.last⟩⟩

/-- A level that matches itself only. -/
structure Literal (l : Bytes) : Prop where
  plus : bytePlus ∉ l
  hash : byteHash ∉ l

/-- The `+` of the filter meets an empty level at the end of the topic. -/
def PlusMeetsEnd (fs ts : List Bytes) : Prop :=
  ts.getLast? = some [] ∧ fs[ts.length - 1]? = some [bytePlus]

instance (fs ts : List Bytes) : Decidable (PlusMeetsEnd fs ts) :=
  inferInstanceAs (Decidable (_ ∧ _))

/-! ## Filters -/

theorem literal_or_plus {l : Bytes} (hplus : bytePlus ∈ l → l = [bytePlus]) (hhash : byteHash ∉ l) :
    l = [bytePlus] ∨ Literal l := by
  by_cases h : bytePlus ∈ l
  · exact .inl (hplus h)
  · exact .inr ⟨h, hhash⟩

theorem IsFilter.single {f : Bytes} (h : IsFilter f) (hf : byteSlash ∉ f) :
    f = [byteHash] ∨ f = [bytePlus] ∨ Literal f := by
  have hmem : f ∈ levelsOf f := by simp [levelsOf_single hf]
  by_cases hhash : byteHash ∈ f
  · exact .inl (h.hash f hmem hhash)
  · exact .inr (literal_or_plus (h.plus f hmem) hhash)

theorem IsFilter.cons {f rest : Bytes} (h : IsFilter (f ++ byteSlash :: rest))
    (hf : byteSlash ∉ f) : (f = [bytePlus] ∨ Literal f) ∧ IsFilter rest := by
  have hlevels := levelsOf_cons hf rest
  have hlast : (levelsOf (f ++ byteSlash :: rest)).dropLast = f :: (levelsOf rest).dropLast := by
    rw [hlevels, List.dropLast_cons_of_ne_nil (levelsOf_ne_nil rest)]
  obtain ⟨hplus, hhash, hend⟩ := h
  rw [hlast] at hend
  rw [hlevels] at hplus hhash
  refine ⟨literal_or_plus (hplus f List.mem_cons_self) (hend f List.mem_cons_self), ?_, ?_, ?_⟩
  · exact fun l hl => hplus l (List.mem_cons_of_mem f hl)
  · exact fun l hl => hhash l (List.mem_cons_of_mem f hl)
  · exact fun l hl => hend l (List.mem_cons_of_mem f hl)

theorem Literal.ne_plus {l : Bytes} (h : Literal l) : l ≠ [bytePlus] := by
  rintro rfl
  exact h.plus List.mem_cons_self

theorem Literal.ne_hash {l : Bytes} (h : Literal l) : l ≠ [byteHash] := by
  rintro rfl
  exact h.hash List.mem_cons_self

/-- A filter that begins with `#` is `#`. -/
theorem IsFilter.head_hash_iff {filter : Bytes} (h : IsFilter filter) :
    filter.head? = some byteHash ↔ levelsOf filter = [[byteHash]] := by
  constructor
  · intro hhead
    rcases levelsOf_cases filter with hf | ⟨f, rest, rfl, hf⟩
    · have hmem := List.mem_of_mem_head? hhead
      rw [levelsOf_single hf, h.hash filter (by simp [levelsOf_single hf]) hmem]
    · have hplain : byteHash ∉ f := h.last f (by
        rw [levelsOf_cons hf, List.dropLast_cons_of_ne_nil (levelsOf_ne_nil rest)]
        exact List.mem_cons_self)
      cases f with
      | nil => cases hhead
      | cons b f => exact absurd (Option.some.inj hhead ▸ List.mem_cons_self) hplain
  · intro hlevels
    have hjoin : [byteSlash].intercalate (filter.splitOn byteSlash) = filter :=
      List.intercalate_splitOn byteSlash
    rw [show filter.splitOn byteSlash = [[byteHash]] from hlevels] at hjoin
    rw [← hjoin]
    rfl

/-! ## The matcher on levels -/

/-- The rest of a text after a level. -/
def Ends (s : Bytes) : Prop := s = [] ∨ ∃ rest, s = byteSlash :: rest

@[simp] theorem matchLevels_slash (p s : Bytes) :
    matchLevels (byteSlash :: p) (byteSlash :: s) = matchLevels p s := by
  rw [matchLevels, if_neg (by decide), if_neg (by decide)]
  simp

@[simp] theorem matchLevels_slash_nil (p : Bytes) :
    matchLevels (byteSlash :: p) [] = decide (p.head? = some byteHash) := by
  rw [matchLevels, if_neg (by decide), if_neg (by decide)]
  simp

theorem matchLevels_plus {t s : Bytes} (ht : byteSlash ∉ t) (hs : Ends s) (p : Bytes) :
    matchLevels (bytePlus :: p) (t ++ s) = if t ++ s = [] then false else matchLevels p s := by
  have hskip : (t ++ s).dropWhile (· ≠ byteSlash) = s := by
    rw [List.dropWhile_append_of_pos fun b hb => by
      simp only [ne_eq, decide_eq_true_eq]
      rintro rfl
      exact ht hb]
    rcases hs with rfl | ⟨rest, rfl⟩
    · rfl
    · simp
  rw [matchLevels.eq_def]
  dsimp only
  rw [if_neg (by decide), if_pos rfl, hskip]

theorem matchLevels_literal {f t p s : Bytes} (hf : Literal f) (hslash : byteSlash ∉ f)
    (ht : byteSlash ∉ t) (hp : Ends p) (hs : Ends s) :
    matchLevels (f ++ p) (t ++ s) = (decide (f = t) && matchLevels p s) := by
  induction f generalizing t with
  | nil =>
    cases t with
    | nil => simp
    | cons b t =>
      have hb : byteSlash ≠ b := fun hc => ht (hc ▸ List.mem_cons_self)
      rcases hp with rfl | ⟨p', rfl⟩
      · simp [matchLevels]
      · rw [List.nil_append, List.cons_append, matchLevels, if_neg (by decide), if_neg (by decide)]
        simp [hb]
  | cons a f ih =>
    have hplus : a ≠ bytePlus := fun hc => hf.plus (hc ▸ List.mem_cons_self)
    have hhash : a ≠ byteHash := fun hc => hf.hash (hc ▸ List.mem_cons_self)
    have ha : a ≠ byteSlash := fun hc => hslash (hc ▸ List.mem_cons_self)
    rw [List.cons_append, matchLevels.eq_def]
    dsimp only
    rw [if_neg hhash, if_neg hplus]
    cases t with
    | nil =>
      rcases hs with rfl | ⟨s', rfl⟩
      · simp [ha]
      · simp [ha]
    | cons b t =>
      rw [List.cons_append]
      dsimp only
      by_cases hab : a = b
      · subst hab
        have htail : Literal f := ⟨fun hc => hf.plus (List.mem_cons_of_mem a hc),
          fun hc => hf.hash (List.mem_cons_of_mem a hc)⟩
        rw [if_neg (not_not_intro rfl), ih htail (fun hc => hslash (List.mem_cons_of_mem a hc))
          fun hc => ht (List.mem_cons_of_mem a hc)]
        simp
      · rw [if_pos hab]
        simp [hab]

/-! ## The matcher and the levels -/

/-- Names of topics have no wildcards, so equality is a match as well. -/
theorem matchWildcard_eq {filter topic : Bytes} (h : Literal topic) :
    matchWildcard filter topic = matchLevels filter topic := by
  unfold matchWildcard
  split
  · next heq =>
    subst heq
    refine (?_ : matchLevels filter filter = true).symm
    induction filter with
    | nil => rfl
    | cons b s ih =>
      have hplus : b ≠ bytePlus := fun hc => h.plus (hc ▸ List.mem_cons_self)
      have hhash : b ≠ byteHash := fun hc => h.hash (hc ▸ List.mem_cons_self)
      rw [matchLevels, if_neg hhash, if_neg hplus, if_neg (not_not_intro rfl)]
      exact ih ⟨fun hc => h.plus (List.mem_cons_of_mem b hc),
        fun hc => h.hash (List.mem_cons_of_mem b hc)⟩
  · rfl

section Steps

variable {f : Bytes} {fs ts : List Bytes} (t : Bytes)

theorem levelsMatch_plus : levelsMatch ([bytePlus] :: fs) (t :: ts) = levelsMatch fs ts := by
  rw [levelsMatch, if_neg fun hc => absurd hc.1 (by decide)]
  simp

theorem levelsMatch_literal (hf : Literal f) :
    levelsMatch (f :: fs) (t :: ts) = (decide (f = t) && levelsMatch fs ts) := by
  rw [levelsMatch, if_neg fun hc => hf.ne_hash hc.1]
  simp [hf.ne_plus]

theorem levelsMatch_nil_right (fs : List Bytes) (hne : fs ≠ []) :
    levelsMatch fs [] = decide (fs = [[byteHash]]) := by
  cases fs with
  | nil => exact absurd rfl hne
  | cons f fs =>
    rw [levelsMatch]
    by_cases h : f = [byteHash] ∧ fs = []
    · rw [if_pos h]
      simp [h]
    · rw [if_neg h]
      simpa using h

theorem plusMeetsEnd_cons (hne : ts ≠ []) : PlusMeetsEnd (f :: fs) (t :: ts) ↔ PlusMeetsEnd fs ts := by
  obtain ⟨t', ts, rfl⟩ := List.exists_cons_of_ne_nil hne
  simp [PlusMeetsEnd, List.getLast?_cons]

theorem plusMeetsEnd_single : PlusMeetsEnd (f :: fs) [t] ↔ t = [] ∧ f = [bytePlus] := by
  simp [PlusMeetsEnd]

end Steps

theorem matchLevels_single_iff {f : Bytes} (hf : f = [bytePlus] ∨ Literal f)
    (hslash : byteSlash ∉ f) (topic : Bytes) : matchLevels f topic = true ↔
      levelsMatch [f] (levelsOf topic) = true ∧ ¬ PlusMeetsEnd [f] (levelsOf topic) := by
  rcases levelsOf_cases topic with ht | ⟨t, rest, rfl, ht⟩
  · have hends : matchLevels f topic = matchLevels (f ++ []) (topic ++ []) := by
      rw [List.append_nil, List.append_nil]
    rw [levelsOf_single ht, plusMeetsEnd_single, hends]
    rcases hf with rfl | hlit
    · rw [List.singleton_append, matchLevels_plus ht (.inl rfl), levelsMatch_plus]
      simp [matchLevels, levelsMatch]
    · rw [matchLevels_literal hlit hslash ht (.inl rfl) (.inl rfl), levelsMatch_literal topic hlit]
      simp [matchLevels, levelsMatch, hlit.ne_plus]
  · have hmore : levelsMatch [] (levelsOf rest) = false := by
      simp [levelsMatch, levelsOf_ne_nil rest]
    have hends : matchLevels f (t ++ byteSlash :: rest) =
        matchLevels (f ++ []) (t ++ byteSlash :: rest) := by
      rw [List.append_nil]
    rw [levelsOf_cons ht, hends]
    rcases hf with rfl | hlit
    · rw [List.singleton_append, matchLevels_plus ht (.inr ⟨rest, rfl⟩), levelsMatch_plus, hmore]
      simp [matchLevels]
    · rw [matchLevels_literal hlit hslash ht (.inl rfl) (.inr ⟨rest, rfl⟩),
        levelsMatch_literal t hlit, hmore]
      simp [matchLevels]

/-- The matcher accepts what matches level by level, unless `+` meets an empty
level at the end. -/
theorem matchLevels_iff {filter : Bytes} (hfilter : IsFilter filter) (topic : Bytes) :
    matchLevels filter topic = true ↔ levelsMatch (levelsOf filter) (levelsOf topic) = true ∧
      ¬ PlusMeetsEnd (levelsOf filter) (levelsOf topic) := by
  induction filter using levelsOf_induction generalizing topic with
  | single f hslash =>
    rw [levelsOf_single hslash]
    rcases hfilter.single hslash with rfl | hf
    · have hno : ¬ PlusMeetsEnd [[byteHash]] (levelsOf topic) := by
        rintro ⟨-, hget⟩
        have hmem := List.mem_of_getElem? hget
        exact absurd hmem (by decide)
      simp [matchLevels, levelsMatch, hno]
    · exact matchLevels_single_iff hf hslash topic
  | cons f rest hslash ih =>
    obtain ⟨hf, hrest⟩ := hfilter.cons hslash
    have hhash : decide (rest.head? = some byteHash) = levelsMatch (levelsOf rest) [] := by
      rw [levelsMatch_nil_right _ (levelsOf_ne_nil rest), decide_eq_decide]
      exact hrest.head_hash_iff
    rw [levelsOf_cons hslash]
    rcases levelsOf_cases topic with ht | ⟨t, s, rfl, ht⟩
    · have hends : matchLevels (f ++ byteSlash :: rest) topic =
          matchLevels (f ++ byteSlash :: rest) (topic ++ []) := by
        rw [List.append_nil]
      rw [levelsOf_single ht, plusMeetsEnd_single, hends]
      rcases hf with rfl | hlit
      · rw [List.singleton_append, matchLevels_plus ht (.inl rfl), levelsMatch_plus,
          matchLevels_slash_nil, hhash]
        simp [and_comm]
      · rw [matchLevels_literal hlit hslash ht (.inr ⟨rest, rfl⟩) (.inl rfl),
          levelsMatch_literal topic hlit, matchLevels_slash_nil, hhash]
        simp [hlit.ne_plus]
    · rw [levelsOf_cons ht, plusMeetsEnd_cons t (levelsOf_ne_nil s)]
      rcases hf with rfl | hlit
      · rw [List.singleton_append, matchLevels_plus ht (.inr ⟨s, rfl⟩), levelsMatch_plus,
          matchLevels_slash, if_neg (by simp)]
        exact ih hrest s
      · rw [matchLevels_literal hlit hslash ht (.inr ⟨rest, rfl⟩) (.inr ⟨s, rfl⟩),
          levelsMatch_literal t hlit, matchLevels_slash, Bool.and_eq_true, Bool.and_eq_true,
          ih hrest s, and_assoc]

/-- **Wildcards.** The matcher agrees with the comparison level by level exactly
if the levels do not match with a `+` on an empty level at the end of the topic. -/
theorem wildcard_match_iff {filter topic : Bytes} (hfilter : IsFilter filter)
    (htopic : Literal topic) :
    (matchWildcard filter topic = true ↔ levelsMatch (levelsOf filter) (levelsOf topic) = true) ↔
      ¬ (levelsMatch (levelsOf filter) (levelsOf topic) = true ∧
        PlusMeetsEnd (levelsOf filter) (levelsOf topic)) := by
  rw [matchWildcard_eq htopic, matchLevels_iff hfilter]
  constructor
  · rintro hiff ⟨hmatch, hend⟩
    exact (hiff.mpr hmatch).2 hend
  · intro hno
    exact ⟨And.left, fun hmatch => ⟨hmatch, fun hend => hno ⟨hmatch, hend⟩⟩⟩

/-- An empty level inside the topic, and a `#` at its end. -/
theorem inner_empty_level_matches :
    matchWildcard (ascii "a/+/b/#") (ascii "a//b") = true := by
  have hfilter : IsFilter (ascii "a/+/b/#") := by decide
  have htopic : Literal (ascii "a//b") := ⟨by decide, by decide⟩
  exact ((wildcard_match_iff hfilter htopic).mpr (by decide)).mpr (by decide)

/-- `a/+` does not match `a/`, and `+` does not match the empty topic. -/
theorem empty_last_level_missed :
    IsFilter (ascii "a/+") ∧ levelsMatch (levelsOf (ascii "a/+")) (levelsOf (ascii "a/")) = true ∧
      matchWildcard (ascii "a/+") (ascii "a/") = false ∧
      IsFilter (ascii "+") ∧ levelsMatch (levelsOf (ascii "+")) (levelsOf []) = true ∧
      matchWildcard (ascii "+") [] = false := by
  decide

end Aqueduct.Broker
