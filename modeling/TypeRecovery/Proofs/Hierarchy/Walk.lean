import Mathlib.Logic.Relation
import TypeRecovery.Hierarchy.Basic

/- What a breadth-first walk visits. It visits a name exactly when a path leads there from the queue
   that stays outside the names seen before, and it visits no name twice. So the set of its visits
   depends on the sets that the names offer, not on the order in which they offer them; sorting then
   removes the order of the visits. -/
namespace TypeRecovery

namespace Walk

/-- One step of a path that stays outside the names seen before. -/
def Leads (nodes : List String) (next : String → List String) (seen : List String)
    (a b : String) : Prop :=
  b ∈ offers nodes next a ∧ b ∉ seen

section Paths
variable {nodes : List String} {next : String → List String} {seen queue : List String}
  {name q x : String}

theorem leads_of_cons (h : Leads nodes next (name :: seen) q x) : Leads nodes next seen q x :=
  ⟨h.1, fun hx => h.2 (List.mem_cons_of_mem _ hx)⟩

theorem reaches_of_cons (h : Relation.ReflTransGen (Leads nodes next (name :: seen)) q x) :
    Relation.ReflTransGen (Leads nodes next seen) q x :=
  Relation.ReflTransGen.mono (fun _ _ => leads_of_cons) _ _ h

/-- A path either ends in `name`, never meets it, or leaves it for the last time. -/
theorem avoids_or_leaves (name : String)
    (h : Relation.ReflTransGen (Leads nodes next seen) q x) :
    x = name ∨ (q ≠ name ∧ Relation.ReflTransGen (Leads nodes next (name :: seen)) q x) ∨
      ∃ b, Leads nodes next (name :: seen) name b ∧
        Relation.ReflTransGen (Leads nodes next (name :: seen)) b x := by
  induction h with
  | refl =>
    by_cases hq : q = name
    · exact .inl hq
    · exact .inr (.inl ⟨hq, .refl⟩)
  | @tail b c _ hbc ih =>
    by_cases hc : c = name
    · exact .inl hc
    · have hbc' : Leads nodes next (name :: seen) b c := ⟨hbc.1, by simp [hc, hbc.2]⟩
      rcases ih with rfl | ⟨hq, hpath⟩ | ⟨d, hd, hpath⟩
      · exact .inr (.inr ⟨c, hbc', .refl⟩)
      · exact .inr (.inl ⟨hq, hpath.tail hbc'⟩)
      · exact .inr (.inr ⟨d, hd, hpath.tail hbc'⟩)

theorem mem_breadthFirst : x ∈ breadthFirst nodes next seen queue ↔
    ∃ q ∈ queue, q ∉ seen ∧ Relation.ReflTransGen (Leads nodes next seen) q x := by
  induction seen, queue using breadthFirst.induct nodes next with
  | case1 seen => simp [breadthFirst]
  | case2 seen name rest hseen ih =>
    rw [breadthFirst, dif_pos hseen, ih]
    simp [List.contains_iff_mem.mp hseen]
  | case3 seen name rest hseen ih =>
    have hname : name ∉ seen := fun h => hseen (List.contains_iff_mem.mpr h)
    rw [breadthFirst, dif_neg hseen, List.mem_cons, ih]
    constructor
    · rintro (rfl | ⟨q, hq, hqs, hpath⟩)
      · exact ⟨x, by simp, hname, .refl⟩
      · have hqs' : q ∉ seen := fun h => hqs (List.mem_cons_of_mem _ h)
        rcases List.mem_append.mp hq with hq | hq
        · exact ⟨q, by simp [hq], hqs', reaches_of_cons hpath⟩
        · exact ⟨name, by simp, hname, .head ⟨hq, hqs'⟩ (reaches_of_cons hpath)⟩
    · rintro ⟨q, hq, hqs, hpath⟩
      rcases avoids_or_leaves name hpath with hx | ⟨hqn, hpath⟩ | ⟨b, hb, hpath⟩
      · exact .inl hx
      · exact .inr ⟨q, by simp_all, by simp [hqn, hqs], hpath⟩
      · exact .inr ⟨b, List.mem_append_right _ hb.1, hb.2, hpath⟩

theorem not_mem_seen (h : x ∈ breadthFirst nodes next seen queue) : x ∉ seen := by
  obtain ⟨q, -, hqs, hpath⟩ := mem_breadthFirst.mp h
  rcases hpath.cases_tail with rfl | ⟨b, -, hbx⟩
  · exact hqs
  · exact hbx.2

theorem nodup_breadthFirst : (breadthFirst nodes next seen queue).Nodup := by
  induction seen, queue using breadthFirst.induct nodes next with
  | case1 seen => simp [breadthFirst]
  | case2 seen name rest hseen ih => rwa [breadthFirst, dif_pos hseen]
  | case3 seen name rest hseen ih =>
    rw [breadthFirst, dif_neg hseen, List.nodup_cons]
    exact ⟨fun h => not_mem_seen h List.mem_cons_self, ih⟩

/-- The order of the offers and how often each is made only change the order of the visits. -/
theorem breadthFirst_perm {next' : String → List String} {queue' : List String}
    (hnext : ∀ a b, b ∈ next a ↔ b ∈ next' a) (hqueue : ∀ b, b ∈ queue ↔ b ∈ queue') :
    (breadthFirst nodes next seen queue).Perm (breadthFirst nodes next' seen queue') := by
  have hleads : Leads nodes next seen = Leads nodes next' seen := by
    funext a b
    unfold Leads offers
    split <;> simp [hnext]
  rw [List.perm_ext_iff_of_nodup nodup_breadthFirst nodup_breadthFirst]
  intro x
  simp only [mem_breadthFirst, hleads, hqueue]

end Paths

end Walk

namespace Hierarchy

/-! ## Sorting -/

theorem insertName_perm (name : String) (names : List String) :
    (insertName name names).Perm (name :: names) := by
  induction names with
  | nil => rfl
  | cons n ns ih =>
    unfold insertName
    split
    · exact (ih.cons n).trans (.swap name n ns)
    · rfl

theorem sortNames_perm (names : List String) : (sortNames names).Perm names := by
  induction names with
  | nil => rfl
  | cons name names ih => exact (insertName_perm name _).trans (ih.cons name)

theorem pairwise_insertName (name : String) {names : List String} (h : names.Pairwise (· ≤ ·)) :
    (insertName name names).Pairwise (· ≤ ·) := by
  induction names with
  | nil => simp [insertName]
  | cons n ns ih =>
    obtain ⟨hn, hns⟩ := List.pairwise_cons.mp h
    unfold insertName
    split
    case isTrue hlt =>
      refine List.pairwise_cons.mpr ⟨fun m hm => ?_, ih hns⟩
      rcases List.mem_cons.mp ((insertName_perm name ns).mem_iff.mp hm) with rfl | hm
      · exact String.not_lt.mp (String.lt_asymm hlt)
      · exact hn m hm
    case isFalse hle =>
      have hle : name ≤ n := String.not_lt.mp hle
      refine List.pairwise_cons.mpr ⟨fun m hm => ?_, h⟩
      rcases List.mem_cons.mp hm with rfl | hm
      · exact hle
      · exact String.le_trans hle (hn m hm)

theorem pairwise_sortNames (names : List String) : (sortNames names).Pairwise (· ≤ ·) := by
  induction names with
  | nil => exact .nil
  | cons name names ih => exact pairwise_insertName name ih

theorem sortNames_eq_of_perm {names names' : List String} (h : names.Perm names') :
    sortNames names = sortNames names' :=
  List.Perm.eq_of_pairwise (fun _ _ _ _ => String.le_antisymm) (pairwise_sortNames names)
    (pairwise_sortNames names')
    ((sortNames_perm names).trans (h.trans (sortNames_perm names').symm))

end Hierarchy

end TypeRecovery
