import Mathlib.Data.List.Chain
import TypeRecovery.Proofs.Hierarchy.Converse

/- The list of supertypes, name by name. It starts with the superclasses, which form a chain that goes
   on until it would leave the declared classes, meet the universal class or come back to itself. Then
   come the interfaces of the class and of its chain, and theirs in turn, each behind a class that
   declares it; a path to them may go around in circles, but it may not lead through the universal
   class, which stands at the end. Nothing is asked of the declarations: they may be circular, and
   classes may be missing. -/
open Relation (ReflTransGen TransGen)

namespace TypeRecovery

namespace Walk

/-- What a walk visits is offered by a name that it visited before, or by one of the names from which
    the queue was filled. -/
theorem offered_before {nodes : List String} {next : String → List String}
    {seen queue first before after : List String} {x : String}
    (hqueue : ∀ q ∈ queue, ∃ d ∈ first, q ∈ next d)
    (hvisits : breadthFirst nodes next seen queue = before ++ x :: after) :
    ∃ d ∈ first ++ before, x ∈ next d := by
  induction seen, queue using breadthFirst.induct nodes next generalizing first before with
  | case1 seen =>
    rw [breadthFirst] at hvisits
    exact absurd hvisits.symm (List.append_ne_nil_of_right_ne_nil _ (List.cons_ne_nil _ _))
  | case2 seen name rest hseen ih =>
    rw [breadthFirst, dif_pos hseen] at hvisits
    exact ih (fun q hq => hqueue q (List.mem_cons_of_mem name hq)) hvisits
  | case3 seen name rest hseen ih =>
    rw [breadthFirst, dif_neg hseen] at hvisits
    cases before with
    | nil =>
      obtain ⟨rfl, -⟩ := List.cons_eq_cons.mp hvisits
      rw [List.append_nil]
      exact hqueue name List.mem_cons_self
    | cons n before =>
      obtain ⟨rfl, htail⟩ := List.cons_eq_cons.mp hvisits
      -- from now on the visited name counts among those that filled the queue
      have hqueue' : ∀ q ∈ rest ++ offers nodes next name, ∃ d ∈ first ++ [name], q ∈ next d := by
        intro q hq
        rcases List.mem_append.mp hq with hq | hq
        · obtain ⟨d, hd, hqd⟩ := hqueue q (List.mem_cons_of_mem name hq)
          exact ⟨d, List.mem_append_left _ hd, hqd⟩
        · refine ⟨name, by simp, ?_⟩
          unfold offers at hq
          split at hq
          · exact hq
          · cases hq
      rw [List.append_cons]
      exact ih hqueue' htail

end Walk

namespace Hierarchy

open Walk (Step)

/-! ## Superclasses -/

/-- The superclasses of a class from nearest to farthest: each is declared by the one before it, none
    comes twice, and the universal class is none of them. They go on as far as that: what the last one
    declares, if it is declared itself and declares anything, is the universal class or was there
    before. -/
structure IsSuperChain (h : Hierarchy) (c : String) (chain : List String) : Prop where
  climbs : (c :: chain).IsChain fun a b => b ∈ h.supers a
  once : (c :: chain).Nodup
  proper : Ty.objectClass ∉ chain
  stops : ∀ p ∈ h.supers ((c :: chain).getLast (List.cons_ne_nil c chain)),
    p = Ty.objectClass ∨ p ∈ c :: chain

section
variable {h : Hierarchy} {c p x : String} {seen : List String} {d : ClassDecl}

theorem mem_supers (hd : h.lookup? c = some d) : p ∈ h.supers c ↔ d.superName ≠ "" ∧ p = d.superName := by
  rw [supers, hd, Option.map_some, Option.getD_some]
  split <;> simp [*]

/-- A chain that does not stop goes on to the superclass, and from there if it is declared. -/
theorem superChainFrom_eq (hstop : ¬(d.superName = "" ∨ d.superName = Ty.objectClass ∨
    seen.contains d.superName = true)) :
    h.superChainFrom seen d = d.superName ::
      ((h.lookup? d.superName).map (h.superChainFrom (d.superName :: seen))).getD [] := by
  rw [superChainFrom, dif_neg hstop]
  split <;> simp [*]

theorem climbs_superChainFrom (hd : h.lookup? c = some d) :
    (c :: h.superChainFrom seen d).IsChain fun a b => b ∈ h.supers a := by
  induction seen, d using superChainFrom.induct h generalizing c with
  | case1 seen d hstop =>
    rw [superChainFrom, dif_pos hstop]
    exact .singleton c
  | case2 seen d hstop hnone =>
    have hsuper := (mem_supers hd).mpr ⟨fun he => hstop (.inl he), rfl⟩
    rw [superChainFrom_eq hstop, hnone]
    exact .cons_cons hsuper (.singleton _)
  | case3 seen d hstop e he ih =>
    have hsuper := (mem_supers hd).mpr ⟨fun he => hstop (.inl he), rfl⟩
    rw [superChainFrom_eq hstop, he]
    exact .cons_cons hsuper (ih he)

theorem stops_superChainFrom (hd : h.lookup? c = some d)
    (hp : p ∈ h.supers ((c :: h.superChainFrom seen d).getLast (List.cons_ne_nil _ _))) :
    p = Ty.objectClass ∨ p ∈ seen ∨ p ∈ h.superChainFrom seen d := by
  induction seen, d using superChainFrom.induct h generalizing c with
  | case1 seen d hstop =>
    have hchain : h.superChainFrom seen d = [] := by rw [superChainFrom, dif_pos hstop]
    simp only [hchain, List.getLast_singleton] at hp
    obtain ⟨hne, rfl⟩ := (mem_supers hd).mp hp
    rcases hstop.resolve_left hne with hobj | hseen
    · exact .inl hobj
    · exact .inr (.inl (List.contains_iff_mem.mp hseen))
  | case2 seen d hstop hnone =>
    have hchain := superChainFrom_eq (h := h) hstop
    have hnot : d.superName ∉ h.names := by simp [mem_names_iff, hnone]
    rw [hnone, Option.map_none, Option.getD_none] at hchain
    simp only [hchain, List.getLast_cons_cons, List.getLast_singleton, supers_of_not_mem hnot] at hp
    cases hp
  | case3 seen d hstop e he ih =>
    have hchain := superChainFrom_eq (h := h) hstop
    rw [he, Option.map_some, Option.getD_some] at hchain
    simp only [hchain, List.getLast_cons_cons] at hp
    rw [hchain]
    rcases ih he hp with hobj | hseen | hlater
    · exact .inl hobj
    · rcases List.mem_cons.mp hseen with rfl | hseen
      · exact .inr (.inr List.mem_cons_self)
      · exact .inr (.inl hseen)
    · exact .inr (.inr (List.mem_cons_of_mem _ hlater))

theorem isSuperChain_superChain (hc : h.isDeclared c = true) : h.IsSuperChain c (h.superChain c) := by
  obtain ⟨d, hd⟩ := Option.isSome_iff_exists.mp hc
  have hfrom : h.superChain c = h.superChainFrom [c] d := by rw [superChain, hd]
  have hwalk := superChain_eq_breadthFirst h c
  refine ⟨?_, List.nodup_cons.mpr ⟨?_, ?_⟩, ?_, fun p hp => ?_⟩
  · rw [hfrom]
    exact climbs_superChainFrom hd
  · exact fun hmem => (mem_superChain_iff.mp hmem).1 rfl
  · rw [hwalk]
    exact Walk.nodup_breadthFirst
  · intro hmem
    rw [hwalk] at hmem
    exact Walk.not_mem_seen hmem List.mem_cons_self
  · simp only [hfrom] at hp ⊢
    simpa using stops_superChainFrom hd hp

/-! ## Interfaces -/

/-- The names that follow the superclasses: what interfaces lead to from the class and its chain, short
    of the universal class, each behind a name that declares it. -/
structure IsInterfaceList (h : Hierarchy) (start rest : List String) : Prop where
  once : rest.Nodup
  exact : ∀ x, x ∈ rest ↔ x ∉ start ∧ ∃ d ∈ start, TransGen (Step h.interfaces) d x
  behind : ∀ before x after, rest = before ++ x :: after → ∃ d ∈ start ++ before, x ∈ h.interfaces d

theorem isInterfaceList_breadthFirst (h : Hierarchy) (start : List String) :
    h.IsInterfaceList start (Walk.breadthFirst h.names h.interfaces (Ty.objectClass :: start)
      (start.flatMap h.interfaces)) where
  once := Walk.nodup_breadthFirst
  exact x := by
    rw [Walk.mem_breadthFirst_start (fun a => interfaces_of_not_mem) fun a => List.mem_cons]
    refine and_congr_right fun hx => exists_congr fun d => and_congr_right fun hd => ?_
    rw [Relation.reflTransGen_iff_eq_or_transGen]
    exact or_iff_right fun heq => hx (heq ▸ hd)
  behind _ _ _ hvisits := Walk.offered_before (fun _ hq => List.mem_flatMap.mp hq) hvisits

theorem IsInterfaceList.proper {start rest : List String} (hr : h.IsInterfaceList start rest) :
    Ty.objectClass ∉ rest := by
  intro hmem
  obtain ⟨-, d, -, hpath⟩ := (hr.exact _).mp hmem
  obtain ⟨b, -, hstep⟩ := TransGen.tail'_iff.mp hpath
  exact hstep.2 rfl

/-! ## The whole list -/

theorem nodup_ancestors {chain rest : List String} (hchain : h.IsSuperChain c chain)
    (hrest : h.IsInterfaceList (c :: chain) rest) :
    (c :: (chain ++ rest ++ if c = Ty.objectClass then [] else [Ty.objectClass])).Nodup := by
  have hapart : (c :: chain).Disjoint rest := fun x hx hmem => ((hrest.exact x).mp hmem).1 hx
  have hnames : (c :: chain ++ rest).Nodup := List.nodup_append.mpr
    ⟨hchain.once, hrest.once, fun x hx y hy hxy => hapart hx (hxy ▸ hy)⟩
  rw [← List.cons_append, ← List.cons_append]
  split
  · rwa [List.append_nil]
  · next hc =>
    refine List.nodup_append.mpr ⟨hnames, by simp, fun x hx y hy hxy => ?_⟩
    rw [hxy, List.mem_singleton.mp hy, List.mem_append, List.mem_cons] at hx
    rcases hx with (hobj | hobj) | hobj
    · exact hc hobj.symm
    · exact hchain.proper hobj
    · exact hrest.proper hobj

end

end Hierarchy

namespace Catalogue

/-- After any history, circular and incomplete declarations included, the ancestors of a declared class
    are its superclasses, then its interfaces, then the universal class if the class is another. They
    are all different, and the class is none of them. An undeclared name has no ancestors. -/
theorem ancestors_listed (history : List Action) (c : String) :
    let h := (after history).classes
    let answer := ((ancestors c).run (after history)).1
    if h.isDeclared c then
      ∃ chain rest, answer = chain ++ rest ++ (if c = Ty.objectClass then [] else [Ty.objectClass]) ∧
        h.IsSuperChain c chain ∧ h.IsInterfaceList (c :: chain) rest ∧
        (c :: answer).Nodup ∧ Ty.objectClass ∉ chain ++ rest
    else answer = [] := by
  intro h answer
  have hanswer : answer = h.ancestors c := (orderly_after history).shows.answer (answers_ancestors c)
  split
  · next hc =>
    have hchain := Hierarchy.isSuperChain_superChain hc
    have hrest := h.isInterfaceList_breadthFirst (c :: h.superChain c)
    have hlist : answer = _ := hanswer.trans (if_pos hc)
    refine ⟨_, _, hlist, hchain, hrest, ?_, ?_⟩
    · rw [hlist]
      exact Hierarchy.nodup_ancestors hchain hrest
    · rw [List.mem_append]
      exact fun hobj => hobj.elim hchain.proper hrest.proper
  · next hc => exact hanswer.trans (if_neg hc)

-- superclasses in a circle, one of them with an interface that comes back to itself, and with another
-- that is missing
example : (Hierarchy.ofClasses [{ name := "A", super := "B", interfaces := ["I"] },
    { name := "B", super := "A", interfaces := ["J", "A"] },
    { name := "I", interfaces := ["I", Ty.objectClass, "B"], isInterface := true }]).ancestors "A" =
    ["B", "I", "J", Ty.objectClass] := by decide +kernel

end Catalogue

end TypeRecovery
