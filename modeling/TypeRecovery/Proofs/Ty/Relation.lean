import TypeRecovery.Ty.Relation

/- Comparing two types the other way around inverts the relation between them. The rules are tried in
   a fixed order and several of them look at the first type only, so this is not plain from the code.
   It takes two conditions: the oracle does not put two classes below each other, and the types are
   regular. A wildcard stands for the universal class in the oracle's eyes; were there a parameterized
   universal class, neither it nor a wildcard would be told from the other by name. -/
namespace TypeRecovery

/-- No two different classes are below each other. -/
def ClassOracle.Antisymmetric (o : ClassOracle) : Prop :=
  ∀ a b, o.instanceOf a b = true → o.instanceOf b a = true → a = b

namespace Ty

mutual
/-- At all depths a wildcard has an inner type exactly if it is bounded, and the universal class has
    neither arguments nor an enclosing type. -/
def isRegular : Ty → Bool
  | .prim _ | .hole _ => true
  | .array t => t.isRegular
  | .var _ bounds => regularList bounds
  | .wildcard v inner => (v == .free) == inner.isNone && regularOption inner
  | .cls name args outer =>
    (name != objectClass || (args.isEmpty && outer.isNone)) && regularList args && regularOption outer
def regularList : List Ty → Bool
  | [] => true
  | t :: ts => t.isRegular && regularList ts
def regularOption : Option Ty → Bool
  | none => true
  | some t => t.isRegular
end

theorem regularList_iff {ts : List Ty} : regularList ts = true ↔ ∀ t ∈ ts, t.isRegular = true := by
  induction ts with
  | nil => simp [regularList]
  | cons t ts ih => simp [regularList, ih]

/-- The one regular class with the name of the universal class is that class. -/
theorem isObjectClass_of_regular {name : String} {args : List Ty} {outer : Option Ty}
    (h : (cls name args outer).isRegular = true) (hname : name = objectClass) :
    (cls name args outer).isObjectClass = true := by
  simp only [isRegular, hname, bne_self_eq_false, Bool.false_or, Bool.and_eq_true,
    List.isEmpty_iff, Option.isNone_iff_eq_none] at h
  obtain ⟨⟨⟨rfl, rfl⟩, -⟩, -⟩ := h
  simp [isObjectClass, hname]

theorem className_of_isObjectClass {t : Ty} (h : t.isObjectClass = true) :
    t.className = objectClass := by
  unfold isObjectClass at h
  split at h
  · simpa [className] using h
  · cases h

/-! ## Rules between forms

Each rule gives what comparison says of two types of given forms that are not the same type. -/

section
variable {h : Option ClassOracle} {a b t x y : Ty}

theorem compare_self (h : Option ClassOracle) (a : Ty) : compare h a a = .equal := by
  rw [compare.eq_def, if_pos rfl]

theorem compare_known_open (ha : a.isKnown = true) (hb : b.isKnown = false) :
    compare h a b = compareWithOpen a b := by
  rw [compare.eq_def, if_neg (by rintro rfl; simp [ha] at hb)]
  simp [ha, hb]

theorem compare_open_known (ha : a.isKnown = false) (hb : b.isKnown = true) :
    compare h a b = (compareWithOpen b a).invert := by
  rw [compare.eq_def, if_neg (by rintro rfl; simp [ha] at hb)]
  simp [ha, hb]

theorem compare_arrays (hk : x.isKnown = y.isKnown) :
    compare h (.array x) (.array y) = compare h x y := by
  by_cases hxy : x = y
  · rw [hxy, compare_self, compare_self]
  · rw [compare.eq_def, if_neg (by simpa using hxy)]
    simp [isKnown, hk]

theorem compare_array_swap (hk : x.isKnown = t.isKnown) (ht : t.isArray = false) :
    compare h t (.array x) = (compare h (.array x) t).invert := by
  cases t <;> simp_all [compare.eq_def, isKnown, isArray]

theorem compare_holes {ks ls : List Kind} (hne : ks ≠ ls) :
    compare h (.hole ks) (.hole ls) = compareKinds ks ls := by
  rw [compare.eq_def, if_neg (by simpa using hne)]
  rfl

theorem compare_prims {k l : Kind} (hne : k ≠ l) :
    compare h (.prim k) (.prim l) = comparePrims k l := by
  rw [compare.eq_def, if_neg (by simpa using hne)]
  rfl

theorem compare_prim_swap {k : Kind} (ht : t.isReference = true) :
    compare h t (.prim k) = (compare h (.prim k) t).invert := by
  cases t <;> simp_all [compare.eq_def, isKnown, isReference, Relation.invert]

/-- The bounds of two variables of one name, the universal class left out. -/
def compareBounds (h : Option ClassOracle) : List Ty → List Ty → Relation
  | [], _ => .wider
  | _, [] => .narrow
  | [x], [y] => compare h x y
  | _, _ => .conflict

theorem compare_vars {n m : String} {as bs : List Ty} (hne : var n as ≠ var m bs) :
    compare h (.var n as) (.var m bs) =
      if n ≠ m then .conflict
      else if properBounds as = properBounds bs then .equal
      else compareBounds h (properBounds as) (properBounds bs) := by
  rw [compare.eq_def, if_neg hne]
  simp only [isKnown, Bool.not_true, Bool.and_false, Bool.and_true, Bool.false_eq_true, if_false]
  split
  · rfl
  · split
    · rfl
    · -- the comparison keeps the equations of its match for its own termination
      generalize properBounds as = cs
      generalize properBounds bs = ds
      split <;> simp_all [compareBounds]

theorem compare_var_swap {n : String} {bs : List Ty} (ht : t.isReference = true)
    (hv : t.isVar = false) : compare h t (.var n bs) = (compare h (.var n bs) t).invert := by
  cases t with
  | cls =>
    simp only [compare.eq_def h, reduceCtorEq, isKnown, Bool.not_true, Bool.and_false, Bool.and_true,
      Bool.false_eq_true, if_false]
    split <;> rfl
  | wildcard v =>
    cases v with
    | free => simp [compare.eq_def, isKnown, Relation.invert]
    | upper | lower =>
      simp only [compare.eq_def h, reduceCtorEq, isKnown, Bool.not_true, Bool.and_false,
        Bool.and_true, Bool.false_eq_true, if_false]
      split <;> rfl
  | var => cases hv
  | prim | array | hole => cases ht

theorem compare_wildcards {v w : Variance} (hne : wildcard v (some x) ≠ wildcard w (some y))
    (hv : v ≠ .free) (hw : w ≠ .free) :
    compare h (.wildcard v (some x)) (.wildcard w (some y)) =
      if v = w then compare h x y else .conflict := by
  rw [compare.eq_def, if_neg hne]
  cases v <;> cases w <;> trivial

theorem compare_wildcard_free (inner : Option Ty) {v : Variance} (hv : v ≠ .free) :
    compare h (.wildcard .free none) (.wildcard v inner) = .wider ∧
      compare h (.wildcard v inner) (.wildcard .free none) = .narrow := by
  cases v with
  | free => exact absurd rfl hv
  | _ => simp [compare.eq_def, isKnown]

theorem compare_classes {n m : String} {as bs : List Ty} {o p : Option Ty} :
    cls n as o ≠ cls m bs p → compare h (.cls n as o) (.cls m bs p) =
      if n ≠ m then compareClasses h (.cls n as o) (.cls m bs p)
      else if (cls n as o).isGeneric && !(cls m bs p).isGeneric then .narrowByArgs
      else if !(cls n as o).isGeneric && (cls m bs p).isGeneric then .widerByArgs
      else if as.isEmpty || bs.isEmpty then
        match o, p with
        | some x, some y => compare h x y
        | _, _ => .equal
      else if as.length = bs.length then compareArgs h as bs
      else .conflictByArgs := by
  intro hne
  rw [compare.eq_def, if_neg hne]
  rfl

theorem compare_class_wildcard (n : String) (as : List Ty) (o inner : Option Ty) (v : Variance) :
    compare h (.cls n as o) (.wildcard v inner) = compareClasses h (.cls n as o) (.wildcard v inner) ∧
      compare h (.wildcard v inner) (.cls n as o) =
        compareClasses h (.wildcard v inner) (.cls n as o) := by
  simp [compare.eq_def, isKnown]

/-! ## Each rule inverts -/

theorem compareKinds_invert (ks ls : List Kind) :
    compareKinds ls ks = (compareKinds ks ls).invert := by
  have hlength : (if ks.length < ls.length then Relation.wider
      else if ls.length < ks.length then .narrow else .conflict) =
      (if ls.length < ks.length then Relation.wider
      else if ks.length < ls.length then .narrow else .conflict).invert := by
    rcases Nat.lt_trichotomy ks.length ls.length with hlt | heq | hgt
    · simp [hlt, Nat.lt_asymm hlt, Relation.invert]
    · simp [heq, Relation.invert]
    · simp [hgt, Nat.lt_asymm hgt, Relation.invert]
  unfold compareKinds
  cases ks.all (ls.contains ·) <;> cases ls.all (ks.contains ·)
  · exact hlength
  · rfl
  · rfl
  · exact hlength

theorem comparePrims_invert {k l : Kind} (hne : k ≠ l) :
    comparePrims l k = (comparePrims k l).invert := by
  revert hne
  cases k <;> cases l <;> decide

/-- A class and a class or wildcard: their names differ, or one is the universal class. -/
theorem compareClasses_invert (hh : ∀ o, h = some o → o.Antisymmetric) {a b : Ty}
    (hboth : a.isObjectClass = true → b.isObjectClass = false)
    (hname : a.className = b.className → a.isObjectClass = true ∨ b.isObjectClass = true) :
    compareClasses h b a = (compareClasses h a b).invert := by
  unfold compareClasses
  cases ha : a.isObjectClass with
  | true => simp [hboth ha, Relation.invert]
  | false =>
    cases hb : b.isObjectClass with
    | true => simp [Relation.invert]
    | false =>
      have hne : a.className ≠ b.className := fun heq => by simpa [ha, hb] using hname heq
      cases h with
      | none => rfl
      | some o =>
        -- at most one of the two is below the other, so the order of the questions does not matter
        have hone := hh o rfl a.className b.className
        cases hab : o.instanceOf a.className b.className <;>
          cases hba : o.instanceOf b.className a.className
        · cases hda : o.declared a.className <;> cases hdb : o.declared b.className <;>
            simp [hab, hba, hda, hdb, Relation.invert]
        · simp [hab, hba, Relation.invert]
        · simp [hab, hba, Relation.invert]
        · exact absurd (hone hab hba) hne

/-- The first difference between the arguments decides both ways. -/
theorem compareArgs_invert {as bs : List Ty}
    (hpair : ∀ x ∈ as, ∀ y ∈ bs, compare h y x = (compare h x y).invert) :
    compareArgs h bs as = (compareArgs h as bs).invert := by
  induction as generalizing bs with
  | nil => cases bs <;> simp [compareArgs, Relation.invert]
  | cons x xs ih =>
    cases bs with
    | nil => simp [compareArgs, Relation.invert]
    | cons y ys =>
      have hrest : compareArgs h ys xs = (compareArgs h xs ys).invert :=
        ih fun u hu w hw => hpair u (List.mem_cons_of_mem x hu) w (List.mem_cons_of_mem y hw)
      have hhead := hpair x List.mem_cons_self y List.mem_cons_self
      simp only [compareArgs, hhead]
      cases compare h x y <;> simp [Relation.invert, hrest]

end

/-! ## Whole types -/

section
variable {h : Option ClassOracle}

/-- The comparison of these two inverts; for a pair it does not matter which comes first. -/
def Inverts (h : Option ClassOracle) (a b : Ty) : Prop := compare h b a = (compare h a b).invert

theorem Inverts.symm {a b : Ty} (hab : Inverts h a b) : Inverts h b a := by
  unfold Inverts at hab ⊢
  rw [hab, Relation.invert_invert]

theorem inverts_vars {n m : String} {as bs : List Ty} (hne : var n as ≠ var m bs)
    (hpair : ∀ x ∈ as, ∀ y ∈ bs, Inverts h x y) : Inverts h (.var n as) (.var m bs) := by
  unfold Inverts
  rw [compare_vars hne, compare_vars hne.symm]
  by_cases hn : n = m
  · by_cases hb : properBounds as = properBounds bs
    · simp [hn, hb, Relation.invert]
    · have hpair' : ∀ x ∈ properBounds as, ∀ y ∈ properBounds bs, Inverts h x y :=
        fun x hx y hy => hpair x (List.mem_filter.mp hx).1 y (List.mem_filter.mp hy).1
      simp only [hn, hb, Ne.symm hb, ne_eq, not_true_eq_false, if_false]
      revert hb hpair'
      generalize properBounds as = cs
      generalize properBounds bs = ds
      intro hb hpair'
      match cs, ds with
      | [], [] => exact absurd rfl hb
      | [], _ :: _ => rfl
      | _ :: _, [] => rfl
      | [x], [y] => exact hpair' x (List.mem_singleton_self x) y (List.mem_singleton_self y)
      | _ :: _ :: _, _ :: _ => simp [compareBounds, Relation.invert]
      | [_], _ :: _ :: _ => simp [compareBounds, Relation.invert]
  · simp [hn, Ne.symm hn, Relation.invert]

theorem inverts_wildcards {v w : Variance} {i j : Option Ty}
    (hi : (wildcard v i).isRegular = true) (hj : (wildcard w j).isRegular = true)
    (hne : wildcard v i ≠ wildcard w j) (hpair : ∀ x ∈ i, ∀ y ∈ j, Inverts h x y) :
    Inverts h (.wildcard v i) (.wildcard w j) := by
  simp only [isRegular, Bool.and_eq_true, beq_iff_eq] at hi hj
  unfold Inverts
  cases i with
  | none =>
    obtain rfl : v = .free := by simpa using hi.1
    have hw : w ≠ .free := by
      rintro rfl
      exact hne (by cases j <;> simp_all)
    obtain ⟨hfirst, hsecond⟩ := compare_wildcard_free (h := h) j hw
    rw [hfirst, hsecond]
    rfl
  | some x =>
    have hv : v ≠ .free := by simpa using hi.1
    cases j with
    | none =>
      obtain rfl : w = .free := by simpa using hj.1
      obtain ⟨hfirst, hsecond⟩ := compare_wildcard_free (h := h) (some x) hv
      rw [hfirst, hsecond]
      rfl
    | some y =>
      have hw : w ≠ .free := by simpa using hj.1
      rw [compare_wildcards hne hv hw, compare_wildcards hne.symm hw hv]
      by_cases hvw : v = w
      · simp only [hvw, if_true]
        exact hpair x rfl y rfl
      · simp [hvw, Ne.symm hvw, Relation.invert]

theorem inverts_classes (hh : ∀ o, h = some o → o.Antisymmetric) {n m : String} {as bs : List Ty}
    {o p : Option Ty} (hne : cls n as o ≠ cls m bs p) (hargs : ∀ x ∈ as, ∀ y ∈ bs, Inverts h x y)
    (houter : ∀ x ∈ o, ∀ y ∈ p, Inverts h x y) : Inverts h (.cls n as o) (.cls m bs p) := by
  unfold Inverts
  rw [compare_classes hne, compare_classes hne.symm]
  by_cases hn : n = m
  · simp only [hn, ne_eq, not_true_eq_false, if_false]
    -- both classes have arguments somewhere or none has, else that decides
    cases ha : (cls m as o).isGeneric <;> cases hb : (cls m bs p).isGeneric
    case false.true | true.false => rfl
    all_goals
      simp only [Bool.not_true, Bool.not_false, Bool.and_false, Bool.and_true, Bool.false_eq_true,
        if_false]
      rw [Bool.or_comm bs.isEmpty as.isEmpty]
      split
      · cases o with
        | none => cases p <;> rfl
        | some x =>
          cases p with
          | none => rfl
          | some y => exact houter x rfl y rfl
      · by_cases hlen : as.length = bs.length
        · simp only [hlen, if_true]
          exact compareArgs_invert hargs
        · simp [hlen, Ne.symm hlen, Relation.invert]
  · simp only [hn, Ne.symm hn, ne_eq, not_false_eq_true, if_true]
    apply compareClasses_invert hh
    · -- both would have the name of the universal class
      intro hobj
      apply Bool.eq_false_iff.mpr
      intro hother
      exact hn ((className_of_isObjectClass hobj).trans (className_of_isObjectClass hother).symm)
    · intro hname
      exact absurd hname hn

theorem inverts_class_wildcard (hh : ∀ o, h = some o → o.Antisymmetric) {n : String} {as : List Ty}
    {o i : Option Ty} {v : Variance} (hreg : (cls n as o).isRegular = true) :
    Inverts h (.cls n as o) (.wildcard v i) := by
  unfold Inverts
  obtain ⟨hcw, hwc⟩ := compare_class_wildcard (h := h) n as o i v
  rw [hcw, hwc]
  apply compareClasses_invert hh
  · intro _
    rfl
  · intro hname
    exact .inl (isObjectClass_of_regular hreg hname)

end

theorem inverts_of_regular {h : Option ClassOracle} (hh : ∀ o, h = some o → o.Antisymmetric)
    (a b : Ty) (ha : a.isRegular = true) (hb : b.isRegular = true) : Inverts h a b := by
  by_cases heq : a = b
  · rw [Inverts, heq, compare_self]
    rfl
  by_cases hknown : a.isKnown = b.isKnown
  · cases a with
    | array x =>
      cases b with
      | array y =>
        have hxy := inverts_of_regular hh x y ha hb
        have hk : x.isKnown = y.isKnown := hknown
        rwa [Inverts, compare_arrays hk, compare_arrays hk.symm]
      | _ => exact compare_array_swap hknown rfl
    | hole ks =>
      cases b with
      | hole ls =>
        have hne : ks ≠ ls := by simpa using heq
        rw [Inverts, compare_holes hne, compare_holes hne.symm, compareKinds_invert]
      | array y => exact Inverts.symm (compare_array_swap hknown.symm rfl)
      | _ => cases hknown
    | prim k =>
      cases b with
      | prim l =>
        have hne : k ≠ l := by simpa using heq
        rw [Inverts, compare_prims hne, compare_prims hne.symm, comparePrims_invert hne]
      | array y => exact Inverts.symm (compare_array_swap hknown.symm rfl)
      | hole => cases hknown
      | _ => exact compare_prim_swap rfl
    | var n bs =>
      cases b with
      | var m cs =>
        simp only [isRegular, regularList_iff] at ha hb
        refine inverts_vars heq fun x hx y hy => ?_
        have hxs := List.sizeOf_lt_of_mem hx
        have hys := List.sizeOf_lt_of_mem hy
        exact inverts_of_regular hh x y (ha x hx) (hb y hy)
      | prim k => exact Inverts.symm (compare_prim_swap rfl)
      | array y => exact Inverts.symm (compare_array_swap hknown.symm rfl)
      | hole => cases hknown
      | _ => exact compare_var_swap rfl rfl
    | wildcard v i =>
      cases b with
      | wildcard w j =>
        refine inverts_wildcards ha hb heq fun x hx y hy => ?_
        cases hx
        cases hy
        simp only [isRegular, regularOption, Bool.and_eq_true] at ha hb
        exact inverts_of_regular hh x y ha.2 hb.2
      | prim k => exact Inverts.symm (compare_prim_swap rfl)
      | array y => exact Inverts.symm (compare_array_swap hknown.symm rfl)
      | hole => cases hknown
      | var => exact Inverts.symm (compare_var_swap rfl rfl)
      | cls => exact Inverts.symm (inverts_class_wildcard hh hb)
    | cls n as o =>
      cases b with
      | cls m bs p =>
        simp only [isRegular, Bool.and_eq_true, regularList_iff] at ha hb
        refine inverts_classes hh heq (fun x hx y hy => ?_) fun x hx y hy => ?_
        · have hxs := List.sizeOf_lt_of_mem hx
          have hys := List.sizeOf_lt_of_mem hy
          exact inverts_of_regular hh x y (ha.1.2 x hx) (hb.1.2 y hy)
        · cases hx
          cases hy
          exact inverts_of_regular hh x y ha.2 hb.2
      | prim k => exact Inverts.symm (compare_prim_swap rfl)
      | array y => exact Inverts.symm (compare_array_swap hknown.symm rfl)
      | hole => cases hknown
      | var => exact Inverts.symm (compare_var_swap rfl rfl)
      | wildcard => exact inverts_class_wildcard hh ha
  · -- one is known and the other is not: the known one is always asked about the open one
    cases hka : a.isKnown <;> cases hkb : b.isKnown
    case false.false | true.true => simp [hka, hkb] at hknown
    · rw [Inverts, compare_open_known hka hkb, compare_known_open hkb hka, Relation.invert_invert]
    · rw [Inverts, compare_open_known hkb hka, compare_known_open hka hkb]
termination_by sizeOf a + sizeOf b
decreasing_by
  all_goals subst_vars
  all_goals simp only [array.sizeOf_spec, var.sizeOf_spec, wildcard.sizeOf_spec, cls.sizeOf_spec,
    Option.some.sizeOf_spec]
  all_goals omega

/-- Comparing the other way around inverts the relation, and a type is equal to itself. -/
theorem compare_swap {h : Option ClassOracle} (hh : ∀ o, h = some o → o.Antisymmetric) {a b : Ty}
    (ha : a.isRegular = true) (hb : b.isRegular = true) :
    compare h b a = (compare h a b).invert ∧ compare h a a = .equal :=
  ⟨inverts_of_regular hh a b ha hb, compare_self h a⟩

/-- Two classes, one below the other. -/
def pairOracle : ClassOracle where
  declared c := c == "a.Shape" || c == "a.Disc"
  instanceOf c d := c == d || (c == "a.Disc" && d == "a.Shape")
  commonAncestor _ _ := some "a.Shape"

/-- Lists of arrays of bounded wildcards, where only the innermost classes differ. -/
theorem compare_swap_at_nested :
    let list (name : String) : Ty :=
      .cls "a.List" [.array (.cls "a.Box" [.wildcard .upper (some (raw name))] none)] none
    (∀ o, some pairOracle = some o → o.Antisymmetric) ∧
      (list "a.Disc").isRegular = true ∧ (list "a.Shape").isRegular = true ∧
      compare (some pairOracle) (list "a.Disc") (list "a.Shape") = .narrow ∧
      compare (some pairOracle) (list "a.Shape") (list "a.Disc") = .wider := by
  intro list
  have hanti : ∀ o, some pairOracle = some o → o.Antisymmetric := by
    rintro _ ⟨⟩ a b
    simp only [pairOracle, Bool.or_eq_true, Bool.and_eq_true, beq_iff_eq]
    rintro (rfl | ⟨rfl, rfl⟩)
    · intro _
      rfl
    · rintro (heq | ⟨hd, -⟩)
      · exact heq.symm
      · exact hd.symm
  have hdisc : (list "a.Disc").isRegular = true := by decide +kernel
  have hshape : (list "a.Shape").isRegular = true := by decide +kernel
  have hnarrow : compare (some pairOracle) (list "a.Disc") (list "a.Shape") = .narrow := by
    decide +kernel
  obtain ⟨hswap, -⟩ := compare_swap hanti hdisc hshape
  rw [hnarrow] at hswap
  exact ⟨hanti, hdisc, hshape, hnarrow, hswap⟩

end Ty
end TypeRecovery
