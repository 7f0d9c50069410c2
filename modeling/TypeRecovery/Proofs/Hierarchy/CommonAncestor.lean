import TypeRecovery.Proofs.Hierarchy.Ancestors

/- The nearest class that two classes share. The search goes up the superclasses of one class and asks at
   each of them whether the other class is below it. It keeps a list of its own of the classes behind it and
   asks about the universal class like about any other, while the questions are answered from a chain that
   has its own stops. Superclasses may lead around in a circle, to a class that nobody declares or to the
   universal class. Here the way up is told without any of this: `above?` just takes one declaration after
   the other. What the search finds is the first shared class of the chain, and the chain is the part of the
   way before it repeats or comes to the universal class, so it is also the first one on the way. -/
open Relation (ReflTransGen)

namespace TypeRecovery

namespace Hierarchy

open Walk (Step)

/-- The class so many declarations above a class. Nothing keeps the way from going around in a circle. -/
def above? (h : Hierarchy) (name : String) : Nat → Option String
  | 0 => some name
  | n + 1 => (h.above? name n).bind fun c => (h.supers c).head?

/-- `r` is the first class on the way up from `a` that `b` is an instance of. Where there is none on the
    way, it is the universal class. -/
structure FirstShared (h : Hierarchy) (a b r : String) : Prop where
  reached : (∃ n, h.above? a n = some r) ∨ r = Ty.objectClass
  first : ∀ m c, h.above? a m = some c → h.isInstanceOf b c = true → ∃ n ≤ m, h.above? a n = some r

/-- The search from a declaration on, with the superclasses in `seen` behind it, comes to `r` in so many
    turns. Nothing here keeps it from going on forever. -/
inductive SearchEnds (h : Hierarchy) (b : String) : List String → Option ClassDecl → Nat → String → Prop
  | undeclared {seen} : SearchEnds h b seen none 0 Ty.objectClass
  | stopped {seen c} (hstop : c.superName = "" ∨ c.superName ∈ seen) :
      SearchEnds h b seen (some c) 1 Ty.objectClass
  | found {seen c} (hgo : ¬(c.superName = "" ∨ c.superName ∈ seen))
      (hshared : h.isInstanceOf b c.superName = true) : SearchEnds h b seen (some c) 1 c.superName
  | passed {seen c n r} (hgo : ¬(c.superName = "" ∨ c.superName ∈ seen))
      (hshared : h.isInstanceOf b c.superName = false)
      (hrest : SearchEnds h b (c.superName :: seen) (h.lookup? c.superName) n r) :
      SearchEnds h b seen (some c) (n + 1) r

section
variable {h : Hierarchy} {a b c p r : String}

/-! ## The way up -/

/-- A name declares one superclass at most. -/
theorem head?_supers : (h.supers c).head? = some p ↔ p ∈ h.supers c := by
  unfold supers
  cases h.lookup? c with
  | none => simp
  | some d =>
    rw [Option.map_some, Option.getD_some]
    split
    · simp
    · simp [eq_comm]

theorem above?_succ {n : Nat} :
    h.above? a (n + 1) = some p ↔ ∃ c, h.above? a n = some c ∧ p ∈ h.supers c := by
  simp only [above?, Option.bind_eq_some_iff, head?_supers]

/-- A list of names of which each declares the next one is the start of the way. -/
theorem above?_of_isChain {chain : List String} (hchain : (a :: chain).IsChain fun c p => p ∈ h.supers c)
    {n : Nat} (hn : n < (a :: chain).length) : h.above? a n = some (a :: chain)[n] := by
  induction n with
  | zero => rfl
  | succ n ih =>
    have hstep := List.isChain_iff_getElem.mp hchain n hn
    exact above?_succ.mpr ⟨_, ih (by omega), hstep⟩

/-- The way stays among the class and its superclasses until it comes to the universal class. -/
theorem mem_chain_of_above? {n : Nat} (hc : h.above? a n = some c) :
    c ∈ a :: h.superChain a ∨ ∃ m ≤ n, h.above? a m = some Ty.objectClass := by
  induction n generalizing c with
  | zero =>
    cases hc
    exact .inl List.mem_cons_self
  | succ n ih =>
    obtain ⟨d, hd, hsuper⟩ := above?_succ.mp hc
    by_cases hobj : c = Ty.objectClass
    · exact .inr ⟨n + 1, Nat.le_refl _, hobj ▸ hc⟩
    · rcases ih hd with hmem | ⟨m, hm, hup⟩
      · have hpath := mem_cons_superChain.mp hmem
        exact .inl (mem_cons_superChain.mpr (hpath.tail ⟨hsuper, hobj⟩))
      · exact .inr ⟨m, by omega, hup⟩

/-! ## The chain that is searched -/

theorem isInstanceOf_object (h : Hierarchy) (a : String) : h.isInstanceOf a Ty.objectClass = true := by
  simp [isInstanceOf]

theorem isInstanceOf_self (h : Hierarchy) (a : String) : h.isInstanceOf a a = true := by
  simp [isInstanceOf]

/-- A class is an instance of its superclasses. -/
theorem isInstanceOf_of_mem_superChain (ha : h.isDeclared a = true) (hc : c ∈ h.superChain a) :
    h.isInstanceOf a c = true := by
  have hmem : c ∈ h.ancestors a := by
    rw [ancestors, if_pos ha]
    exact List.mem_append_left _ (List.mem_append_left _ hc)
  simp [isInstanceOf, hmem]

/-- Only the universal class has no superclass by name, and it ends the chain. -/
theorem ne_empty_of_mem_superChain (hc : c ∈ h.superChain a) : c ≠ "" := by
  obtain ⟨hne, hpath⟩ := mem_superChain_iff.mp hc
  rcases hpath.cases_tail with rfl | ⟨d, -, hstep, -⟩
  · exact absurd rfl hne
  · unfold supers at hstep
    cases hd : h.lookup? d with
    | none => simp [hd] at hstep
    | some e =>
      rw [hd, Option.map_some, Option.getD_some] at hstep
      split at hstep
      · cases hstep
      · next hsuper => exact List.mem_singleton.mp hstep ▸ hsuper

/-- **The search finds the first shared class.** If the chain has one that `b` is below, nothing before
    it on the way is one; if not, the way comes to the universal class or goes on without one. -/
theorem firstShared_find? (ha : h.isDeclared a = true) (hba : h.isInstanceOf b a = false) :
    h.FirstShared a b (((h.superChain a).find? (h.isInstanceOf b)).getD Ty.objectClass) := by
  have hclimbs := (isSuperChain_superChain ha).climbs
  cases hfind : (h.superChain a).find? (h.isInstanceOf b) with
  | some r =>
    obtain ⟨-, n, hn, hr, hbefore⟩ := List.find?_eq_some_iff_getElem.mp hfind
    have hup : h.above? a (n + 1) = some r := by
      rw [above?_of_isChain hclimbs (Nat.succ_lt_succ hn), List.getElem_cons_succ, hr]
    refine ⟨.inl ⟨n + 1, hup⟩, fun m c hc hbc => ⟨n + 1, Nat.le_of_not_lt fun hm => ?_, hup⟩⟩
    rw [above?_of_isChain hclimbs (by simp; omega)] at hc
    cases m with
    | zero =>
      cases hc
      exact Bool.false_ne_true (hba.symm.trans hbc)
    | succ m =>
      have hnot := hbefore m (by omega)
      rw [List.getElem_cons_succ] at hc
      simp [Option.some.inj hc, hbc] at hnot
  | none =>
    refine ⟨.inr rfl, fun m c hc hbc => ?_⟩
    rcases mem_chain_of_above? hc with hmem | hobj
    · -- no class of the chain is shared, and the class itself is none either
      rcases List.mem_cons.mp hmem with rfl | hmem
      · exact absurd (hba.symm.trans hbc) Bool.false_ne_true
      · exact absurd hbc (List.find?_eq_none.mp hfind c hmem)
    · exact hobj

/-! ## The search -/

/-- Each turn puts one more declared class behind the search, so it ends. -/
theorem searchEnds_sharedFrom (h : Hierarchy) (b : String) (seen : List String) (start : Option ClassDecl) :
    ∃ n ≤ start.elim 0 fun _ => h.unseen seen + 1, h.SearchEnds b seen start n (h.sharedFrom b seen start) := by
  induction seen, start using sharedFrom.induct h b with
  | case1 seen =>
    rw [sharedFrom]
    exact ⟨0, Nat.le_refl _, .undeclared⟩
  | case2 seen c hstop =>
    rw [sharedFrom, dif_pos hstop]
    exact ⟨1, Nat.succ_le_succ (Nat.zero_le _), .stopped (by simpa using hstop)⟩
  | case3 seen c hstop hshared =>
    rw [sharedFrom, dif_neg hstop, if_pos hshared]
    exact ⟨1, Nat.succ_le_succ (Nat.zero_le _), .found (by simpa using hstop) hshared⟩
  | case4 seen c hstop hshared ih =>
    obtain ⟨n, hn, hends⟩ := ih
    rw [sharedFrom, dif_neg hstop, if_neg hshared]
    refine ⟨n + 1, Nat.succ_le_succ ?_, .passed (by simpa using hstop) (Bool.eq_false_iff.mpr hshared) hends⟩
    cases hd : h.lookup? c.superName with
    | none =>
      rw [hd] at hn
      exact Nat.le_trans hn (Nat.zero_le _)
    | some d =>
      rw [hd] at hn
      exact Nat.le_trans hn (unseen_cons_lt hd (by simp_all))

section
variable {seen : List String} {d : ClassDecl} {p : String → Bool}

theorem find?_superChainFrom_of_stop
    (hstop : d.superName = "" ∨ d.superName = Ty.objectClass ∨ seen.contains d.superName = true) :
    (h.superChainFrom seen d).find? p = none := by
  rw [superChainFrom, dif_pos hstop]
  rfl

theorem find?_superChainFrom_of_go
    (hgo : ¬(d.superName = "" ∨ d.superName = Ty.objectClass ∨ seen.contains d.superName = true)) :
    (h.superChainFrom seen d).find? p =
      if p d.superName then some d.superName
      else (h.lookup? d.superName).bind fun e => (h.superChainFrom (d.superName :: seen) e).find? p := by
  rw [superChainFrom, dif_neg hgo]
  split
  · next hd => cases hp : p d.superName <;> simp [hd, hp]
  · next e hd => cases hp : p d.superName <;> simp [hd, hp]

end

/-- **The search agrees with the chain.** The chain begins with the class itself behind it and stops before
    the universal class; the search does neither. It finds the universal class shared if it comes there. If
    the way goes around to the class itself, the search passes it a second time, and then stops because its
    superclass is the first one that it has put behind it. -/
theorem sharedFrom_eq_find? {start : ClassDecl} (hstart : h.lookup? a = some start)
    (hba : h.isInstanceOf b a = false) (seen : List String) (at? : Option ClassDecl) :
    ∀ d, at? = some d → (d = start ∨ start.superName ∈ seen) → h.sharedFrom b seen at? =
      ((h.superChainFrom (seen ++ [a]) d).find? (h.isInstanceOf b)).getD Ty.objectClass := by
  induction seen, at? using sharedFrom.induct h b with
  | case1 seen =>
    intro d hd
    cases hd
  | case2 seen d hstop =>
    intro _ hd _
    cases hd
    have hend : d.superName = "" ∨ d.superName = Ty.objectClass ∨ (seen ++ [a]).contains d.superName := by
      simp at hstop ⊢
      tauto
    rw [sharedFrom, dif_pos hstop, find?_superChainFrom_of_stop hend]
    rfl
  | case3 seen d hstop hshared =>
    intro _ hd _
    cases hd
    rw [sharedFrom, dif_neg hstop, if_pos hshared]
    by_cases hobj : d.superName = Ty.objectClass
    · rw [find?_superChainFrom_of_stop (.inr (.inl hobj)), hobj]
      rfl
    · have hself : d.superName ≠ a := by
        intro heq
        rw [heq, hba] at hshared
        cases hshared
      rw [find?_superChainFrom_of_go (by simp at hstop ⊢; tauto), if_pos hshared]
      rfl
  | case4 seen d hstop hshared ih =>
    intro _ hd hbegun
    cases hd
    have hbehind : start.superName ∈ d.superName :: seen := by
      rcases hbegun with rfl | hmem
      · exact List.mem_cons_self
      · exact List.mem_cons_of_mem _ hmem
    rw [sharedFrom, dif_neg hstop, if_neg hshared]
    by_cases hself : d.superName = a
    · -- around to the class itself: its superclass is behind the search by now
      rw [find?_superChainFrom_of_stop (.inr (.inr (by simp [hself]))), hself, hstart, sharedFrom,
        dif_pos (.inr (by simpa [hself] using hbehind))]
      rfl
    · have hobj : d.superName ≠ Ty.objectClass := by
        intro heq
        apply hshared
        rw [heq]
        exact isInstanceOf_object h b
      rw [find?_superChainFrom_of_go (by simp at hstop ⊢; tauto), if_neg hshared]
      cases hnext : h.lookup? d.superName with
      | none =>
        rw [sharedFrom]
        rfl
      | some e =>
        rw [← hnext, ih e hnext (.inr hbehind)]
        rw [hnext]
        rfl

/-! ## The answer -/

theorem commonAncestor?_eq_none_iff : h.commonAncestor? a b = none ↔ h.isInstanceOf a b = false ∧
    h.isInstanceOf b a = false ∧ (h.isDeclared a = false ∨ h.isDeclared b = false) := by
  unfold commonAncestor?
  cases h.isInstanceOf a b <;> cases h.isInstanceOf b a <;> cases h.isDeclared a <;>
    cases h.isDeclared b <;> simp

/-- What a search that is needed finds: the first shared class of the chain. -/
theorem commonAncestor?_of_apart (hab : h.isInstanceOf a b = false) (hba : h.isInstanceOf b a = false)
    (hr : h.commonAncestor? a b = some r) : h.isDeclared a = true ∧ h.sharedFrom b [] (h.lookup? a) = r ∧
      r = ((h.superChain a).find? (h.isInstanceOf b)).getD Ty.objectClass := by
  unfold commonAncestor? at hr
  rw [hab, hba] at hr
  simp only [Bool.false_eq_true, if_false] at hr
  split at hr
  · next hdeclared =>
    have hda := (Bool.and_eq_true_iff.mp hdeclared).1
    obtain ⟨start, hstart⟩ := Option.isSome_iff_exists.mp hda
    refine ⟨hda, Option.some.inj hr, ?_⟩
    rw [← Option.some.inj hr, hstart, superChain, hstart]
    exact sharedFrom_eq_find? hstart hba [] (some start) start rfl (.inl rfl)
  · cases hr

/-- What is found is above both classes: one of them, a superclass of `a`, or the universal class. -/
theorem above_of_commonAncestor? (ha : a ≠ "") (hb : b ≠ "") (hr : h.commonAncestor? a b = some r) :
    r ≠ "" ∧ h.isInstanceOf a r = true ∧ h.isInstanceOf b r = true := by
  cases hab : h.isInstanceOf a b with
  | true =>
    rw [commonAncestor?, if_pos hab] at hr
    cases hr
    exact ⟨hb, hab, isInstanceOf_self h b⟩
  | false =>
    cases hba : h.isInstanceOf b a with
    | true =>
      rw [commonAncestor?, hab, if_neg Bool.false_ne_true, if_pos hba] at hr
      cases hr
      exact ⟨ha, isInstanceOf_self h a, hba⟩
    | false =>
      obtain ⟨hda, -, rfl⟩ := commonAncestor?_of_apart hab hba hr
      cases hfind : (h.superChain a).find? (h.isInstanceOf b) with
      | some c =>
        have hmem := List.mem_of_find?_eq_some hfind
        exact ⟨ne_empty_of_mem_superChain hmem, isInstanceOf_of_mem_superChain hda hmem,
          List.find?_some hfind⟩
      | none => exact ⟨by decide, isInstanceOf_object h a, isInstanceOf_object h b⟩

/-- The search from the beginning passes every declared class once at most, and comes once more to the
    class it stops at. -/
theorem firstShared_of_commonAncestor? (hab : h.isInstanceOf a b = false) (hba : h.isInstanceOf b a = false)
    (hr : h.commonAncestor? a b = some r) :
    (∃ n ≤ h.size + 1, h.SearchEnds b [] (h.lookup? a) n r) ∧
      r = ((h.superChain a).find? (h.isInstanceOf b)).getD Ty.objectClass ∧ h.FirstShared a b r := by
  obtain ⟨hda, hsearch, hfind⟩ := commonAncestor?_of_apart hab hba hr
  have hfirst : h.FirstShared a b r := hfind ▸ firstShared_find? hda hba
  obtain ⟨n, hn, hends⟩ := searchEnds_sharedFrom h b [] (h.lookup? a)
  have hbound : ((h.lookup? a).elim 0 fun _ => h.unseen [] + 1) ≤ h.size + 1 := by
    cases h.lookup? a with
    | none => exact Nat.zero_le _
    | some d => exact Nat.succ_le_succ (List.length_filter_le _ _)
  exact ⟨⟨n, Nat.le_trans hn hbound, hsearch ▸ hends⟩, hfind, hfirst⟩

end

end Hierarchy

namespace Catalogue

/-- After any history, circular and incomplete declarations included, and for two names that are not
    empty: the search for a shared class comes to nothing exactly if neither name is an instance of the other
    and one of them is undeclared. What it finds is above both. Where neither is an instance of the other, the
    search ends within one turn more than there are declarations. It then agrees with the chain from which
    the instance questions are answered, and with the way up itself: it finds the first class of either that
    the second name is an instance of. -/
theorem commonAncestor_first_shared (history : List Action) {a b : String} (ha : a ≠ "") (hb : b ≠ "") :
    let h := (after history).classes
    let answer := ((commonAncestor? a b).run (after history)).1
    (answer = none ↔ h.isInstanceOf a b = false ∧ h.isInstanceOf b a = false ∧
        (h.isDeclared a = false ∨ h.isDeclared b = false)) ∧
      ∀ r, answer = some r → (r ≠ "" ∧ h.isInstanceOf a r = true ∧ h.isInstanceOf b r = true) ∧
        (h.isInstanceOf a b = false → h.isInstanceOf b a = false →
          (∃ n ≤ h.size + 1, h.SearchEnds b [] (h.lookup? a) n r) ∧
          r = ((h.superChain a).find? (h.isInstanceOf b)).getD Ty.objectClass ∧ h.FirstShared a b r) := by
  intro h answer
  have hanswer : answer = h.commonAncestor? a b :=
    (orderly_after history).shows.answer (answers_commonAncestor? a b)
  rw [hanswer]
  refine ⟨Hierarchy.commonAncestor?_eq_none_iff, ?_⟩
  intro r hr
  refine ⟨Hierarchy.above_of_commonAncestor? ha hb hr, ?_⟩
  intro hab hba
  exact Hierarchy.firstShared_of_commonAncestor? hab hba hr

/-- Two classes meet in one whose own superclass is missing; a class in a circle shares nothing with them
    but the universal class; with a name that is not declared there is no answer. -/
theorem commonAncestor_first_shared_at_circle :
    let history : List Action := [.addClass { name := "a.A", super := "a.M" },
      .addClass { name := "a.M", super := "a.B" }, .addClass { name := "a.B", super := "a.X" },
      .ask (.isInstanceOf "a.D" "a.B"), .addClass { name := "a.D", super := "a.B" },
      .addClass { name := "a.E", super := "a.F" }, .addClass { name := "a.F", super := "a.E" }]
    let h := (after history).classes
    let answer (a b : String) := ((commonAncestor? a b).run (after history)).1
    (answer "a.A" "a.D" = some "a.B" ∧ h.isInstanceOf "a.A" "a.B" = true ∧
        h.isInstanceOf "a.D" "a.B" = true ∧ h.FirstShared "a.A" "a.D" "a.B") ∧
      (answer "a.E" "a.D" = some Ty.objectClass ∧ h.FirstShared "a.E" "a.D" Ty.objectClass) ∧
      answer "a.X" "a.E" = none := by
  intro history h answer
  have hmeet : answer "a.A" "a.D" = some "a.B" := by decide +kernel
  have hcircle : answer "a.E" "a.D" = some Ty.objectClass := by decide +kernel
  have hnone : h.isInstanceOf "a.X" "a.E" = false ∧ h.isInstanceOf "a.E" "a.X" = false ∧
      (h.isDeclared "a.X" = false ∨ h.isDeclared "a.E" = false) := by decide +kernel
  obtain ⟨-, hA⟩ := commonAncestor_first_shared history (a := "a.A") (b := "a.D") (by decide) (by decide)
  obtain ⟨-, hE⟩ := commonAncestor_first_shared history (a := "a.E") (b := "a.D") (by decide) (by decide)
  obtain ⟨hX, -⟩ := commonAncestor_first_shared history (a := "a.X") (b := "a.E") (by decide) (by decide)
  obtain ⟨⟨-, hAB, hDB⟩, hfirst⟩ := hA _ hmeet
  obtain ⟨-, hfirst'⟩ := hE _ hcircle
  obtain ⟨-, -, hAD⟩ := hfirst (by decide +kernel) (by decide +kernel)
  obtain ⟨-, -, hED⟩ := hfirst' (by decide +kernel) (by decide +kernel)
  exact ⟨⟨hmeet, hAB, hDB, hAD⟩, ⟨hcircle, hED⟩, hX.mpr hnone⟩

end Catalogue

end TypeRecovery
