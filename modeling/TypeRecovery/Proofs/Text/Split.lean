import TypeRecovery.Text.Split

/- Cutting at a separator undoes joining with it: the text up to the first separator is the first
   part, and cutting goes on behind it. -/
namespace TypeRecovery.Text

theorem splitAt_ne_nil (sep : Char) (s : List Char) : splitAt sep s ≠ [] := by
  cases s with
  | nil => simp [splitAt]
  | cons c s =>
    rw [splitAt]
    split
    · simp
    · split <;> simp

theorem splitAt_of_not_mem {sep : Char} {s : List Char} (h : sep ∉ s) : splitAt sep s = [s] := by
  induction s with
  | nil => rfl
  | cons c s ih =>
    obtain ⟨hc, hs⟩ := not_or.mp (mt List.mem_cons.mpr h)
    simp [splitAt, ih hs, Ne.symm hc]

theorem splitAt_append {sep : Char} {s : List Char} (h : sep ∉ s) (r : List Char) :
    splitAt sep (s ++ sep :: r) = s :: splitAt sep r := by
  induction s with
  | nil =>
    obtain ⟨part, parts, hr⟩ := List.exists_cons_of_ne_nil (splitAt_ne_nil sep r)
    simp [splitAt, hr]
  | cons c s ih =>
    obtain ⟨hc, hs⟩ := not_or.mp (mt List.mem_cons.mpr h)
    simp [splitAt, ih hs, Ne.symm hc]

theorem cut?_eq_none {sep s : List Char} (h : ' ' ∉ s) : cut? (' ' :: sep) s = none := by
  induction s with
  | nil => rfl
  | cons c s ih =>
    obtain ⟨hc, hs⟩ := not_or.mp (mt List.mem_cons.mpr h)
    simp [cut?, ih hs, List.isPrefixOf, hc]

theorem cut?_append {sep s : List Char} (h : ' ' ∉ s) (r : List Char) :
    cut? (' ' :: sep) (s ++ (' ' :: sep ++ r)) = some (s, r) := by
  induction s with
  | nil =>
    have hp : (' ' :: sep).isPrefixOf (' ' :: (sep ++ r)) = true :=
      List.isPrefixOf_iff_prefix.mpr (List.prefix_append (' ' :: sep) r)
    simp only [List.nil_append, List.cons_append, cut?, hp, if_true]
    simp
  | cons c s ih =>
    obtain ⟨hc, hs⟩ := not_or.mp (mt List.mem_cons.mpr h)
    have ih := ih hs
    simp only [List.cons_append] at ih ⊢
    simp [cut?, ih, List.isPrefixOf, hc]

end TypeRecovery.Text
