import Aqueduct.Lib.Bytes

/-!
Texts made of fields. A search for a keyword between two delimiters walks over
the fields one by one, because a delimiter never stands inside a field. Cutting
at single bytes is `List.splitOn`; cutting at a longer separator goes on behind
its first occurrence.
-/

namespace ByteStr

/-! ## Searching -/

/-- Where the first delimiter stands is told by the text. -/
theorem append_cons_inj {c : UInt8} {f g s t : Bytes} (hf : c ∉ f) (hg : c ∉ g)
    (h : f ++ c :: s = g ++ c :: t) : f = g ∧ s = t := by
  have hlen : some f.length = some g.length := by
    rw [← indexByte_eq_some_iff.mpr ⟨f, s, rfl, hf, rfl⟩, h]
    exact indexByte_eq_some_iff.mpr ⟨g, t, rfl, hg, rfl⟩
  obtain ⟨hfg, hst⟩ := List.append_inj h (Option.some.inj hlen)
  exact ⟨hfg, (List.cons.inj hst).2⟩

theorem index_eq_zero {sep s : Bytes} (h : sep <+: s) : index sep s = some 0 := by
  cases s with
  | nil => simp [index, List.prefix_nil.mp h]
  | cons b s => rw [index, if_pos (List.isPrefixOf_iff_prefix.mpr h)]

theorem index_cons_of_not_isPrefix {sep s : Bytes} {b : UInt8} (h : ¬ sep <+: b :: s) :
    index sep (b :: s) = (index sep s).map (· + 1) := by
  rw [index, if_neg (mt List.isPrefixOf_iff_prefix.mp h)]

/-- The text around a first occurrence. -/
theorem index_eq_some_append {sep s : Bytes} {i : Nat} (h : index sep s = some i) :
    ∃ pre rest, s = pre ++ (sep ++ rest) ∧ i = pre.length := by
  obtain ⟨⟨rest, hrest⟩, hlen⟩ := index_eq_some h
  refine ⟨s.take i, rest, ?_, ?_⟩
  · rw [hrest, List.take_append_drop]
  · rw [List.length_take]
    omega

theorem append_sep_inj {sep pre pre' rest rest' : Bytes}
    (h : index sep (pre ++ (sep ++ rest)) = some pre.length)
    (h' : index sep (pre' ++ (sep ++ rest')) = some pre'.length) :
    pre ++ (sep ++ rest) = pre' ++ (sep ++ rest') ↔ pre = pre' ∧ rest = rest' := by
  constructor
  · intro heq
    rw [heq, h'] at h
    obtain ⟨hpre, hrest⟩ := List.append_inj heq (Option.some.inj h).symm
    exact ⟨hpre, List.append_cancel_left hrest⟩
  · rintro ⟨rfl, rfl⟩
    rfl

/-- Bytes that cannot start the separator are skipped. -/
theorem index_append_of_not_mem {c : UInt8} {sep t : Bytes} (h : c ∉ t) (s : Bytes) :
    index (c :: sep) (t ++ s) = (index (c :: sep) s).map (· + t.length) := by
  induction t with
  | nil => simp
  | cons b t ih =>
    obtain ⟨hb, ht⟩ := List.ne_and_not_mem_of_not_mem_cons h
    have hskip : ¬ c :: sep <+: b :: (t ++ s) := fun hp => hb (List.cons_prefix_cons.mp hp).1
    rw [List.cons_append, index_cons_of_not_isPrefix hskip, ih ht, Option.map_map, List.length_cons]
    congr 1

/-- The keyword `k` between two delimiters. -/
def delimited (c : UInt8) (k : Bytes) : Bytes := c :: (k ++ [c])

section Delimited

variable {c : UInt8} {k f : Bytes} (hk : c ∉ k) (hf : c ∉ f)

include hf

theorem not_delimited_isInfix : ¬ delimited c k <:+: c :: f := by
  intro hin
  have hcount := hin.sublist.count_le c
  rw [delimited, List.count_cons_self, List.count_append, List.count_cons_self,
    List.count_cons_self, List.count_eq_zero_of_not_mem hf] at hcount
  omega

theorem index_delimited_last : index (delimited c k) (c :: f) = none :=
  (index_eq_none_iff _ _).mpr (not_delimited_isInfix hf)

include hk

/-- The field behind a delimiter is the keyword, or the search goes on at the
next delimiter. -/
theorem index_delimited_field (s : Bytes) :
    index (delimited c k) (c :: (f ++ c :: s)) =
      if f = k then some 0
      else (index (delimited c k) (c :: s)).map (· + (f.length + 1)) := by
  split
  · next heq =>
    subst heq
    exact index_eq_zero ⟨s, by simp [delimited]⟩
  · next hne =>
    have hskip : ¬ delimited c k <+: c :: (f ++ c :: s) := by
      rintro ⟨post, hpost⟩
      rw [delimited, List.cons_append, List.cons.injEq, List.append_assoc] at hpost
      exact hne (append_cons_inj hf hk hpost.2.symm).1
    rw [index_cons_of_not_isPrefix hskip]
    rw [delimited, index_append_of_not_mem hf, Option.map_map]
    rfl

end Delimited

/-! ## Cutting -/

section Split

variable {sep : Bytes} (hsep : sep ≠ [])

include hsep

theorem splitN_of_length_le {n : Nat} {s : Bytes} (h : s.length ≤ n) :
    splitN sep n s = split sep s := by
  have hfuel : ∀ n m (s : Bytes), s.length ≤ n → s.length ≤ m → splitN sep n s = splitN sep m s := by
    intro n
    induction n with
    | zero =>
      intro m s hn _
      obtain rfl := List.eq_nil_of_length_eq_zero (Nat.le_zero.mp hn)
      cases m with
      | zero => rfl
      | succ m => rw [splitN, splitN, index, if_neg hsep]
    | succ n ih =>
      intro m s hn hm
      cases m with
      | zero =>
        obtain rfl := List.eq_nil_of_length_eq_zero (Nat.le_zero.mp hm)
        rw [splitN, splitN, index, if_neg hsep]
      | succ m =>
        rw [splitN, splitN]
        cases hi : index sep s with
        | none => rfl
        | some i =>
          have hpos := List.length_pos_of_ne_nil hsep
          have hlen := (index_eq_some hi).2
          have hdrop : (s.drop (i + sep.length)).length = s.length - (i + sep.length) :=
            List.length_drop
          exact congrArg _ (ih m _ (by omega) (by omega))
  exact hfuel n s.length s h (Nat.le_refl _)

omit hsep in
theorem split_of_absent {s : Bytes} (h : index sep s = none) : split sep s = [s] := by
  unfold split
  cases s with
  | nil => rfl
  | cons b s => rw [List.length_cons, splitN, h]

theorem split_of_index {s : Bytes} {i : Nat} (h : index sep s = some i) :
    split sep s = s.take i :: split sep (s.drop (i + sep.length)) := by
  have hpos := List.length_pos_of_ne_nil hsep
  have hlen := (index_eq_some h).2
  obtain ⟨n, hn⟩ := Nat.exists_eq_succ_of_ne_zero (show s.length ≠ 0 by omega)
  rw [split, hn, splitN, h]
  dsimp only
  rw [splitN_of_length_le hsep]
  rw [List.length_drop]
  omega

end Split

theorem split_byte (c : UInt8) (s : Bytes) : split [c] s = s.splitOn c := by
  induction hn : s.length using Nat.strong_induction_on generalizing s with
  | _ n ih =>
    by_cases hc : c ∈ s
    · obtain ⟨pre, post, rfl, hpre⟩ := List.eq_append_cons_of_mem hc
      have hindex : index [c] (pre ++ c :: post) = some pre.length := by
        have hzero : index [c] (c :: post) = some 0 := index_eq_zero ⟨post, rfl⟩
        rw [index_append_of_not_mem hpre, hzero, Option.map_some, Nat.zero_add]
      rw [split_of_index (List.cons_ne_nil c []) hindex, List.take_left,
        List.splitOn_append_cons_self_of_not_mem hpre, List.length_singleton]
      have hdrop : (pre ++ c :: post).drop (pre.length + 1) = post := by simp
      have hlen : post.length < n := by
        rw [← hn, List.length_append, List.length_cons]
        omega
      rw [hdrop, ih _ hlen post rfl]
    · have hindex : index [c] s = none := by
        rw [index_eq_none_iff, List.singleton_infix_iff]
        exact hc
      rw [split_of_absent hindex, List.splitOn_eq_singleton hc]

end ByteStr
