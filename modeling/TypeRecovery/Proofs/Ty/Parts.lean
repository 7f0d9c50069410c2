import TypeRecovery.Proofs.Ty.RoundTrip

/- The parts of a type, and what is asked of each. A part may stand at any depth: among the arguments,
   in the enclosing type, in the bounds of a variable, behind a wildcard or in an array. Comparing and
   printing rely on well-formed parts and do not check them again. What a text can say is told by
   `Formed`: it is closed under all ways to build a type from a text, and does not look into the bounds
   of a variable, which the text only names. -/
namespace TypeRecovery.Ty

/-- The first type stands somewhere in the second one. -/
inductive Part (u : Ty) : Ty → Prop where
  | refl : Part u u
  | arg {t : Ty} {name : String} {args : List Ty} {outer : Option Ty} :
      t ∈ args → Part u t → Part u (.cls name args outer)
  | outer {t : Ty} {name : String} {args : List Ty} : Part u t → Part u (.cls name args (some t))
  | bound {t : Ty} {name : String} {bounds : List Ty} : t ∈ bounds → Part u t → Part u (.var name bounds)
  | inner {t : Ty} {v : Variance} : Part u t → Part u (.wildcard v (some t))
  | elem {t : Ty} : Part u t → Part u (.array t)

/-- Every part of the type is as it should be. -/
structure WellFormed (t : Ty) : Prop where
  /-- A wildcard has an inner type exactly if it is bounded. -/
  wildcard : ∀ v inner, Part (.wildcard v inner) t → (inner.isSome = true ↔ v ≠ .free)
  /-- The kinds of a placeholder stand by rank, each once, and there are some. -/
  hole : ∀ ks, Part (.hole ks) t → ks ≠ [] ∧ ks.Pairwise fun k l => k.rank < l.rank
  /-- No class is enclosed. -/
  cls : ∀ name args outer, Part (.cls name args outer) t → outer = none
  /-- No primitive is a reference. -/
  prim : ∀ k, Part (.prim k) t → k ≠ .object ∧ k ≠ .array

theorem WellFormed.array {t : Ty} (h : t.WellFormed) : (Ty.array t).WellFormed where
  wildcard v inner hpart := by
    cases hpart with
    | elem hpart => exact h.wildcard v inner hpart
  hole ks hpart := by
    cases hpart with
    | elem hpart => exact h.hole ks hpart
  cls name args outer hpart := by
    cases hpart with
    | elem hpart => exact h.cls name args outer hpart
  prim k hpart := by
    cases hpart with
    | elem hpart => exact h.prim k hpart

/-- The part stands in a bound of a variable in scope. -/
def InBound (scope : List TypeVar) (u : Ty) : Prop := ∃ v ∈ scope, ∃ b ∈ v.bounds, Part u b

/-- The types that a text can say with these variables in scope. -/
inductive Formed (scope : List TypeVar) : Ty → Prop where
  | prim {k : Kind} : k ≠ .object → k ≠ .array → Formed scope (.prim k)
  | cls {name : String} {args : List Ty} : (∀ t ∈ args, Formed scope t) → Formed scope (.cls name args none)
  | var {v : TypeVar} : v ∈ scope → Formed scope v.ty
  | free : Formed scope (.wildcard .free none)
  | bounded {v : Variance} {t : Ty} : v ≠ .free → Formed scope t → Formed scope (.wildcard v (some t))
  | array {t : Ty} : Formed scope t → t.isBounded = false → Formed scope (.array t)
  | hole {ks : List Kind} : ks ≠ [] → (ks.Pairwise fun k l => k.rank < l.rank) → Formed scope (.hole ks)

section
variable {scope : List TypeVar} {t u : Ty}

/-- A part of what a text says is said by the text, or stands in a bound that it does not look into. -/
theorem Formed.part (ht : Formed scope t) (hu : Part u t) : Formed scope u ∨ InBound scope u := by
  induction hu with
  | refl => exact .inl ht
  | arg hmem _ ih =>
    cases ht with
    | cls hargs => exact ih (hargs _ hmem)
  | outer => cases ht
  | @bound t name bounds hmem hpart =>
    generalize hvar : Ty.var name bounds = s at ht
    cases ht with
    | @var v hv =>
      obtain ⟨rfl, rfl⟩ := Ty.var.inj hvar
      exact .inr ⟨v, hv, t, hmem, hpart⟩
    | _ => cases hvar
  | inner _ ih =>
    cases ht with
    | bounded _ ht => exact ih ht
  | elem _ ih =>
    cases ht with
    | array ht _ => exact ih ht

/-- With well-formed variables in scope, what a text says is well formed. -/
theorem Formed.wellFormed (ht : Formed scope t) (hscope : ∀ v ∈ scope, ∀ b ∈ v.bounds, b.WellFormed) :
    t.WellFormed where
  wildcard v inner hpart := by
    rcases ht.part hpart with h | ⟨x, hx, b, hb, hin⟩
    · cases h with
      | free => simp
      | bounded hv _ => simpa using hv
    · exact (hscope x hx b hb).wildcard v inner hin
  hole ks hpart := by
    rcases ht.part hpart with h | ⟨x, hx, b, hb, hin⟩
    · cases h with
      | hole hne hrank => exact ⟨hne, hrank⟩
    · exact (hscope x hx b hb).hole ks hin
  cls name args outer hpart := by
    rcases ht.part hpart with h | ⟨x, hx, b, hb, hin⟩
    · cases h with
      | cls => rfl
    · exact (hscope x hx b hb).cls name args outer hin
  prim k hpart := by
    rcases ht.part hpart with h | ⟨x, hx, b, hb, hin⟩
    · cases h with
      | prim hobject harray => exact ⟨hobject, harray⟩
    · exact (hscope x hx b hb).prim k hin

/-- Brackets behind a bounded wildcard belong to its bound. -/
theorem Formed.inBound_of_bounded (ht : Formed scope t) {v : Variance} {inner : Option Ty} (hv : v ≠ .free)
    (hpart : Part (.array (.wildcard v inner)) t) : InBound scope (.array (.wildcard v inner)) := by
  rcases ht.part hpart with h | h
  · cases h with
    | array helem hbound =>
      cases helem with
      | free => exact absurd rfl hv
      | bounded => cases hbound
  · exact h

/-! ## Names with a meaning -/

theorem ranked_pairwise (ks : List Kind) : (Kind.ranked ks).Pairwise fun k l => k.rank < l.rank := by
  have hall : Kind.all.Pairwise fun k l => k.rank < l.rank := by decide
  exact hall.filter _

theorem formed_holeOf {ks : List Kind} (hne : ks ≠ []) : Formed scope (holeOf ks) := by
  refine .hole (fun hnil => ?_) (ranked_pairwise ks)
  obtain ⟨k, l, rfl⟩ := List.exists_cons_of_ne_nil hne
  have hmem : k ∈ Kind.ranked (k :: l) := Kind.mem_ranked.mpr List.mem_cons_self
  rw [hnil] at hmem
  cases hmem

theorem formed_anything : Formed scope anything := .hole (by decide) (by decide)

theorem formed_alias? {name : String} (h : alias? name = some t) :
    Formed scope t ∧ t.isBounded = false := by
  unfold alias? at h
  split at h
  all_goals cases h
  case h_1 => exact ⟨formed_anything, rfl⟩
  case h_3 => exact ⟨.array formed_anything rfl, rfl⟩
  all_goals exact ⟨formed_holeOf (List.cons_ne_nil _ _), rfl⟩

theorem formed_primitive? {name : String} (h : primitive? name = some t) :
    Formed scope t ∧ t.isBounded = false := by
  unfold primitive? at h
  split at h
  · cases h
  · cases h
  · cases h
  · next k hobject harray _ =>
    cases h
    exact ⟨.prim hobject harray, rfl⟩

/-- No name stands for a bounded wildcard. -/
theorem formed_named? {name : String} (h : named? scope name = some t) :
    Formed scope t ∧ t.isBounded = false := by
  have h : (alias? name).or ((primitive? name).or ((inScope? scope name).map TypeVar.ty)) = some t := by
    rw [← h, named?, Option.orElse_eq_orElse, Option.orElse_eq_or, Option.orElse_eq_or]
  rcases Option.or_eq_some_iff.mp h with h | ⟨-, h⟩
  · exact formed_alias? h
  · rcases Option.or_eq_some_iff.mp h with h | ⟨-, h⟩
    · exact formed_primitive? h
    · obtain ⟨v, hv, rfl⟩ := Option.map_eq_some_iff.mp h
      exact ⟨.var (List.mem_reverse.mp (List.mem_of_find?_eq_some hv)), rfl⟩

end

end TypeRecovery.Ty
