import TypeRecovery.Proofs.Hierarchy.History

/- Supertypes and subtypes. `ancestors` goes up the superclasses of a class and then from interface to
   interface, and never past the universal class; `implementations` goes down all links. Both are
   described as paths of declarations here. So what stands above a class has the class below it, always;
   the other way round it takes a hierarchy in which interfaces declare no superclass and the universal
   class declares nothing. -/
open Relation (ReflTransGen TransGen)

namespace TypeRecovery

/-! ## Walks that start from a set of names -/

namespace Walk

/-- One declared step that does not end in the universal class. -/
def Step (next : String → List String) (a b : String) : Prop := b ∈ next a ∧ b ≠ Ty.objectClass

section
variable {nodes : List String} {next : String → List String} {start seen : List String} {d x : String}

theorem offers_eq (hnext : ∀ a, a ∉ nodes → next a = []) (a : String) : offers nodes next a = next a := by
  unfold offers
  split
  · rfl
  · next ha => exact (hnext a fun h => ha (List.contains_iff_mem.mpr h)).symm

/-- A path from the starting names either ends among them or leaves them for the last time. -/
theorem ends_or_leaves (hnext : ∀ a, a ∉ nodes → next a = [])
    (hseen : ∀ a, a ∈ seen ↔ a = Ty.objectClass ∨ a ∈ start) (hd : d ∈ start)
    (h : ReflTransGen (Step next) d x) :
    x ∈ start ∨ ∃ e ∈ start, ∃ q ∈ next e, q ∉ seen ∧
      ReflTransGen (Leads nodes next seen) q x := by
  induction h with
  | refl => exact .inl hd
  | @tail b x _ hstep ih =>
    by_cases hx : x ∈ start
    · exact .inl hx
    · have hnew : x ∉ seen := fun h => ((hseen x).mp h).elim hstep.2 hx
      rcases ih with hb | ⟨e, he, q, hq, hqs, hpath⟩
      · exact .inr ⟨b, hb, x, hstep.1, hnew, .refl⟩
      · exact .inr ⟨e, he, q, hq, hqs, hpath.tail ⟨(offers_eq hnext b).symm ▸ hstep.1, hnew⟩⟩

/-- A walk that has seen its starting names and the universal class, and starts from what they offer,
    visits what paths short of the universal class lead to. -/
theorem mem_breadthFirst_start (hnext : ∀ a, a ∉ nodes → next a = [])
    (hseen : ∀ a, a ∈ seen ↔ a = Ty.objectClass ∨ a ∈ start) :
    x ∈ breadthFirst nodes next seen (start.flatMap next) ↔
      x ∉ start ∧ ∃ d ∈ start, ReflTransGen (Step next) d x := by
  have hstep : ∀ a b, Leads nodes next seen a b → Step next a b := fun a b hab =>
    ⟨offers_eq hnext a ▸ hab.1, fun hb => hab.2 ((hseen b).mpr (.inl hb))⟩
  constructor
  · intro hx
    refine ⟨fun h => not_mem_seen hx ((hseen x).mpr (.inr h)), ?_⟩
    obtain ⟨q, hq, hqs, hpath⟩ := mem_breadthFirst.mp hx
    obtain ⟨d, hd, hdq⟩ := List.mem_flatMap.mp hq
    have hfirst : Step next d q := ⟨hdq, fun h => hqs ((hseen q).mpr (.inl h))⟩
    exact ⟨d, hd, .head hfirst (ReflTransGen.mono hstep _ _ hpath)⟩
  · rintro ⟨hx, d, hd, hpath⟩
    rcases ends_or_leaves hnext hseen hd hpath with h | ⟨e, he, q, hq, hqs, hpath⟩
    · exact absurd h hx
    · exact mem_breadthFirst.mpr ⟨q, List.mem_flatMap.mpr ⟨e, he, hq⟩, hqs, hpath⟩

end

end Walk

namespace Hierarchy

open Walk (Step)

/-! ## What is declared directly -/

/-- The superclass that a name declares, if any. -/
def supers (h : Hierarchy) (name : String) : List String :=
  ((h.lookup? name).map fun d => if d.superName = "" then [] else [d.superName]).getD []

/-- `a` declares `b` as its superclass or as an interface. -/
def Below (h : Hierarchy) (a b : String) : Prop := b ∈ h.supers a ∨ b ∈ h.interfaces a

section
variable {h : Hierarchy} {name a b c x : String}

theorem mem_names_iff : name ∈ h.names ↔ (h.lookup? name).isSome := by
  simp [names, lookup?, List.find?_isSome]

theorem supers_of_not_mem (hn : name ∉ h.names) : h.supers name = [] := by
  have hnone : h.lookup? name = none := by simpa [mem_names_iff] using hn
  rw [supers, hnone]
  rfl

theorem interfaces_of_not_mem (hn : name ∉ h.names) : h.interfaces name = [] := by
  have hnone : h.lookup? name = none := by simpa [mem_names_iff] using hn
  rw [interfaces, hnone]
  rfl

theorem mem_names_of_below (hab : h.Below a b) : a ∈ h.names := by
  refine Decidable.byContradiction fun hn => ?_
  rw [Below, supers_of_not_mem hn, interfaces_of_not_mem hn] at hab
  simp at hab

theorem mem_children_iff_below (hh : h.Orderly) : a ∈ h.children b ↔ h.Below a b := by
  rw [mem_children hh, mentions, Below, supers, interfaces]
  cases h.lookup? a with
  | none => simp
  | some d =>
    rw [Option.map_some, Option.getD_some, List.count_pos_iff, ClassDecl.parents]
    split <;> simp [*]

/-! ## Upwards -/

/-- The chain of superclasses is a walk too, with one offer for each name. -/
theorem superChainFrom_eq_breadthFirst {seen seen' : List String} {d : ClassDecl}
    (hseen : ∀ a, a ∈ seen' ↔ a = Ty.objectClass ∨ a ∈ seen) :
    h.superChainFrom seen d = Walk.breadthFirst h.names h.supers seen'
      (if d.superName = "" then [] else [d.superName]) := by
  induction seen, d using superChainFrom.induct h generalizing seen' with
  | case1 seen d hstop =>
    rw [superChainFrom, dif_pos hstop]
    split
    · rw [Walk.breadthFirst]
    · next hne =>
      have hmem : d.superName ∈ seen' := (hseen _).mpr (by simpa [hne] using hstop)
      rw [Walk.breadthFirst, dif_pos (List.contains_iff_mem.mpr hmem), Walk.breadthFirst]
  | case2 seen d hstop hnone =>
    have hnew : ¬seen'.contains d.superName = true := by
      rw [List.contains_iff_mem, hseen]
      exact fun h => hstop (.inr (by simpa using h))
    have hoffers : Walk.offers h.names h.supers d.superName = [] := by
      rw [Walk.offers_eq fun a => supers_of_not_mem, supers, hnone]
      rfl
    rw [superChainFrom, dif_neg hstop, if_neg fun hne => hstop (.inl hne), Walk.breadthFirst,
      dif_neg hnew, hoffers, List.append_nil, Walk.breadthFirst]
    split <;> simp_all
  | case3 seen d hstop e he ih =>
    have hnew : ¬seen'.contains d.superName = true := by
      rw [List.contains_iff_mem, hseen]
      exact fun h => hstop (.inr (by simpa using h))
    have hoffers : Walk.offers h.names h.supers d.superName =
        if e.superName = "" then [] else [e.superName] := by
      rw [Walk.offers_eq fun a => supers_of_not_mem, supers, he]
      rfl
    have hseen' : ∀ a, a ∈ d.superName :: seen' ↔ a = Ty.objectClass ∨ a ∈ d.superName :: seen :=
      fun a => by rw [List.mem_cons, List.mem_cons, hseen, or_left_comm]
    rw [superChainFrom, dif_neg hstop, if_neg fun hne => hstop (.inl hne), Walk.breadthFirst,
      dif_neg hnew, hoffers, List.nil_append, ← ih hseen']
    split <;> simp_all

theorem superChain_eq_breadthFirst (h : Hierarchy) (name : String) :
    h.superChain name = Walk.breadthFirst h.names h.supers [Ty.objectClass, name]
      ([name].flatMap h.supers) := by
  rw [superChain, List.flatMap_singleton, supers]
  cases h.lookup? name with
  | none => rw [Option.map_none, Option.getD_none, Walk.breadthFirst]
  | some d => exact superChainFrom_eq_breadthFirst fun a => by simp

/-- The class and its chain are what superclasses lead to, short of the universal class. -/
theorem mem_cons_superChain : x ∈ name :: h.superChain name ↔ ReflTransGen (Step h.supers) name x := by
  rw [superChain_eq_breadthFirst, List.mem_cons,
    Walk.mem_breadthFirst_start (fun a => supers_of_not_mem) fun a => by simp]
  constructor
  · rintro (rfl | ⟨-, d, hd, hpath⟩)
    · exact .refl
    · exact List.mem_singleton.mp hd ▸ hpath
  · intro hpath
    by_cases hx : x = name
    · exact .inl hx
    · exact .inr ⟨by simpa using hx, name, by simp, hpath⟩

theorem mem_superChain_iff : x ∈ h.superChain name ↔ x ≠ name ∧ ReflTransGen (Step h.supers) name x := by
  rw [← mem_cons_superChain, List.mem_cons]
  constructor
  · intro hx
    refine ⟨?_, .inr hx⟩
    rintro rfl
    rw [superChain_eq_breadthFirst] at hx
    exact Walk.not_mem_seen hx (by simp)
  · rintro ⟨hne, hx⟩
    exact hx.resolve_left hne

/-- Short of the universal class, the ancestors of a class are what superclasses and then interfaces
    lead to. -/
theorem mem_ancestors_iff (hobj : x ≠ Ty.objectClass) : x ∈ h.ancestors c ↔
    x ≠ c ∧ ∃ d, ReflTransGen (Step h.supers) c d ∧ ReflTransGen (Step h.interfaces) d x := by
  unfold ancestors isDeclared
  by_cases hc : (h.lookup? c).isSome = true
  · have hlast : x ∉ if c = Ty.objectClass then [] else [Ty.objectClass] := by
      split <;> simp [hobj]
    rw [if_pos hc]
    simp only [List.mem_append, hlast, or_false, ← mem_cons_superChain]
    rw [Walk.mem_breadthFirst_start (fun a => interfaces_of_not_mem) fun a => by simp,
      mem_superChain_iff]
    constructor
    · rintro (⟨hne, hpath⟩ | ⟨hx, d, hd, hpath⟩)
      · exact ⟨hne, x, mem_cons_superChain.mpr hpath, .refl⟩
      · exact ⟨fun h => hx (h ▸ List.mem_cons_self), d, hd, hpath⟩
    · rintro ⟨hne, d, hd, hpath⟩
      by_cases hx : x ∈ c :: h.superChain c
      · exact .inl ⟨hne, mem_cons_superChain.mp hx⟩
      · exact .inr ⟨hx, d, hd, hpath⟩
  · -- an undeclared name leads nowhere
    rw [if_neg hc]
    have hn : c ∉ h.names := fun hmem => hc (mem_names_iff.mp hmem)
    refine iff_of_false List.not_mem_nil ?_
    rintro ⟨hne, d, hsupers, hpath⟩
    rcases hsupers.cases_head with rfl | ⟨b, hb, -⟩
    · rcases hpath.cases_head with rfl | ⟨b, hb, -⟩
      · exact hne rfl
      · exact List.not_mem_nil (interfaces_of_not_mem hn ▸ hb.1)
    · exact List.not_mem_nil (supers_of_not_mem hn ▸ hb.1)

/-! ## Downwards -/

theorem leads_children_iff (hh : h.Orderly) :
    Walk.Leads h.names h.children [] a b ↔ a ∈ h.names ∧ h.Below b a := by
  unfold Walk.Leads Walk.offers
  split
  · next ha => simp [List.contains_iff_mem.mp ha, mem_children_iff_below hh]
  · next ha =>
    have hn : a ∉ h.names := fun hmem => ha (List.contains_iff_mem.mpr hmem)
    simp [hn]

/-- The implementations of a name are the classes from which declarations lead to it. -/
theorem mem_implementations_iff (hh : h.Orderly) : c ∈ h.implementations x ↔ TransGen h.Below c x := by
  rw [implementations, (sortNames_perm _).mem_iff, Walk.mem_breadthFirst]
  constructor
  · rintro ⟨q, hq, -, hpath⟩
    have hfirst : TransGen h.Below q x := .single ((mem_children_iff_below hh).mp hq)
    induction hpath with
    | refl => exact hfirst
    | tail _ hstep ih => exact .head ((leads_children_iff hh).mp hstep).2 ih
  · intro hpath
    induction hpath using TransGen.head_induction_on with
    | @single a hax => exact ⟨a, (mem_children_iff_below hh).mpr hax, by simp, .refl⟩
    | @head a b hab hbx ih =>
      obtain ⟨q, hq, hqs, hqb⟩ := ih
      have hb : b ∈ h.names := by
        obtain ⟨d, hbd, -⟩ := TransGen.head'_iff.mp hbx
        exact mem_names_of_below hbd
      exact ⟨q, hq, hqs, hqb.tail ((leads_children_iff hh).mpr ⟨hb, hab⟩)⟩

/-! ## Both ways -/

/-- Interfaces declare no superclass but the universal class, and that one declares nothing. -/
structure Layered (h : Hierarchy) : Prop where
  top : ∀ p, ¬h.Below Ty.objectClass p
  interfaces : ∀ a i p, i ∈ h.interfaces a → p ∈ h.supers i → p = Ty.objectClass

theorem below_of_ancestor {d : String} (hsupers : ReflTransGen (Step h.supers) c d)
    (hinterfaces : ReflTransGen (Step h.interfaces) d x) : ReflTransGen h.Below c x :=
  (ReflTransGen.mono (fun _ _ hs => .inl hs.1) _ _ hsupers).trans
    (ReflTransGen.mono (fun _ _ hs => .inr hs.1) _ _ hinterfaces)

/-- In a layered hierarchy every path of declarations that ends short of the universal class goes up
    superclasses first. -/
theorem ancestor_of_below (hl : h.Layered) (hpath : ReflTransGen h.Below c x) :
    x = Ty.objectClass ∨
      ∃ d, ReflTransGen (Step h.supers) c d ∧ ReflTransGen (Step h.interfaces) d x := by
  induction hpath with
  | refl => exact .inr ⟨c, .refl, .refl⟩
  | @tail y z _ hyz ih =>
    by_cases hz : z = Ty.objectClass
    · exact .inl hz
    · rcases ih with rfl | ⟨d, hsupers, hinterfaces⟩
      · exact absurd hyz (hl.top z)
      · rcases hyz with hsuper | hinterface
        · -- only a class that was reached by superclasses alone has a superclass to go to
          rcases hinterfaces.cases_tail with rfl | ⟨b, -, hby⟩
          · exact .inr ⟨z, hsupers.tail ⟨hsuper, hz⟩, .refl⟩
          · exact absurd (hl.interfaces b y z hby.1 hsuper) hz
        · exact .inr ⟨d, hsupers, hinterfaces.tail ⟨hinterface, hz⟩⟩

end

/-- After any history, for two names of which the upper one is not the universal class: the upper one
    is an ancestor if superclasses and then interfaces lead there; the lower one is an implementation if
    any declarations lead there; so ancestors always have the class as an implementation, and the other
    way round it is so in a layered hierarchy. -/
theorem ancestors_and_implementations (history : List Action) {c x : String} (hne : x ≠ c)
    (hobj : x ≠ Ty.objectClass) :
    let h := (Catalogue.after history).classes
    (x ∈ h.ancestors c ↔
      ∃ d, ReflTransGen (Step h.supers) c d ∧ ReflTransGen (Step h.interfaces) d x) ∧
    (c ∈ h.implementations x ↔ TransGen h.Below c x) ∧
    (x ∈ h.ancestors c → c ∈ h.implementations x) ∧
    (h.Layered → (x ∈ h.ancestors c ↔ c ∈ h.implementations x)) := by
  intro h
  have hh : h.Orderly := (Catalogue.orderly_after history).classes
  have hup : x ∈ h.ancestors c ↔
      ∃ d, ReflTransGen (Step h.supers) c d ∧ ReflTransGen (Step h.interfaces) d x := by
    rw [mem_ancestors_iff hobj]
    exact and_iff_right hne
  have hdown : c ∈ h.implementations x ↔ TransGen h.Below c x := mem_implementations_iff hh
  have himp : x ∈ h.ancestors c → c ∈ h.implementations x := fun hx => by
    obtain ⟨d, hsupers, hinterfaces⟩ := hup.mp hx
    refine hdown.mpr ?_
    rcases Relation.reflTransGen_iff_eq_or_transGen.mp (below_of_ancestor hsupers hinterfaces) with
      heq | hpath
    · exact absurd heq hne
    · exact hpath
  refine ⟨hup, hdown, himp, fun hl => ⟨himp, fun hc => hup.mpr ?_⟩⟩
  exact (ancestor_of_below hl (hdown.mp hc).to_reflTransGen).resolve_left hobj

/-- An interface with a superclass: the class that lists it has only the interface above it, and still
    stands below the superclass. -/
theorem ancestors_and_implementations_at_interface :
    let history : List Action := [.addClass { name := "a.B" },
      .addClass { name := "a.I", super := "a.B", isInterface := true },
      .addClass { name := "a.C", interfaces := ["a.I"] }]
    let h := (Catalogue.after history).classes
    h.ancestors "a.C" = ["a.I", Ty.objectClass] ∧ h.implementations "a.B" = ["a.C", "a.I"] ∧
      "a.C" ∈ h.implementations "a.I" ∧ TransGen h.Below "a.C" "a.B" ∧ ¬h.Layered := by
  intro history h
  have hup : h.ancestors "a.C" = ["a.I", Ty.objectClass] := by decide +kernel
  have hdown : h.implementations "a.B" = ["a.C", "a.I"] := by decide +kernel
  obtain ⟨-, -, hI, -⟩ :=
    ancestors_and_implementations history (c := "a.C") (x := "a.I") (by decide) (by decide)
  obtain ⟨-, hpath, -, hB⟩ :=
    ancestors_and_implementations history (c := "a.C") (x := "a.B") (by decide) (by decide)
  have hmem : "a.C" ∈ h.implementations "a.B" := by simp [hdown]
  refine ⟨hup, hdown, hI (by simp [h, hup]), hpath.mp hmem, fun hl => ?_⟩
  have habove : "a.B" ∈ h.ancestors "a.C" := (hB hl).mpr hmem
  rw [hup] at habove
  exact absurd habove (by decide)

end Hierarchy

end TypeRecovery
