import TypeRecovery.Ty.Substitution

/- Replacing type variables, once and again. All variables are replaced at the same time and at every
   depth, but a replacement is not looked into, so a second substitution is needed to reach its
   variables. Two substitutions in a row are the same as one that has the second one applied to its
   replacements beforehand. The variables that a type is left with can be told from those it had: each
   one is kept, or makes room for the variables of its replacement. -/
namespace TypeRecovery

namespace Substitution

/-- The substitution that does the work of two: the replacements of the first one as the second one
    leaves them, and those of the second one for the names that the first one does not have. -/
def andThen (s₁ s₂ : Substitution) : Substitution := s₁.map (fun e => (e.1, e.2.replace s₂)) ++ s₂

theorem find?_andThen (s₁ s₂ : Substitution) (name : String) :
    (s₁.andThen s₂).find? name = ((s₁.find? name).map (Ty.replace s₂)).or (s₂.find? name) := by
  unfold andThen find?
  induction s₁ with
  | nil => simp
  | cons e s₁ ih =>
    obtain ⟨n, t⟩ := e
    simp only [List.map_cons, List.cons_append, List.lookup_cons]
    cases name == n with
    | true => simp
    | false => exact ih

end Substitution

namespace Ty

/-- The variables that take the place of a variable. -/
def varsFor (s : Substitution) (v : TypeVar) : List TypeVar := ((s.find? v.name).map typeVars).getD [v]

/-! ## Two in a row -/

mutual
theorem replace_replace (s₁ s₂ : Substitution) :
    ∀ t : Ty, (t.replace s₁).replace s₂ = t.replace (s₁.andThen s₂)
  | .var name bounds => by
    -- a name of the first substitution brings in a finished replacement, any other waits for the second
    simp only [replace, Substitution.find?_andThen]
    cases s₁.find? name with
    | none => simp [replace]
    | some r => simp
  | .array t => by rw [replace, replace, replace, replace_replace s₁ s₂ t]
  | .wildcard v inner => by rw [replace, replace, replace, replaceOption_replaceOption s₁ s₂ inner]
  | .cls name args outer => by
    rw [replace, replace, replace, replaceList_replaceList s₁ s₂ args,
      replaceOption_replaceOption s₁ s₂ outer]
  | .prim k => by rw [replace, replace, replace]
  | .hole ks => by rw [replace, replace, replace]
theorem replaceList_replaceList (s₁ s₂ : Substitution) :
    ∀ ts : List Ty, replaceList s₂ (replaceList s₁ ts) = replaceList (s₁.andThen s₂) ts
  | [] => by rw [replaceList, replaceList, replaceList]
  | t :: ts => by
    rw [replaceList, replaceList, replaceList, replace_replace s₁ s₂ t,
      replaceList_replaceList s₁ s₂ ts]
theorem replaceOption_replaceOption (s₁ s₂ : Substitution) :
    ∀ o : Option Ty, replaceOption s₂ (replaceOption s₁ o) = replaceOption (s₁.andThen s₂) o
  | none => by rw [replaceOption, replaceOption, replaceOption]
  | some t => by rw [replaceOption, replaceOption, replaceOption, replace_replace s₁ s₂ t]
end

/-! ## The variables afterwards -/

mutual
theorem typeVars_replace (s : Substitution) :
    ∀ t : Ty, (t.replace s).typeVars = t.typeVars.flatMap (varsFor s)
  | .var name bounds => by
    rw [replace, typeVars, List.flatMap_singleton, varsFor]
    cases s.find? name with
    | none => rw [Option.getD_none, Option.map_none, Option.getD_none, typeVars]
    | some r => rfl
  | .array t => by rw [replace, typeVars, typeVars, typeVars_replace s t]
  | .wildcard v inner => by rw [replace, typeVars, typeVars, typeVarsOption_replaceOption s inner]
  | .cls name args outer => by
    rw [replace, typeVars, typeVars, List.flatMap_append, typeVarsList_replaceList s args,
      typeVarsOption_replaceOption s outer]
  | .prim k => by rw [replace, typeVars, List.flatMap_nil]
  | .hole ks => by rw [replace, typeVars, List.flatMap_nil]
theorem typeVarsList_replaceList (s : Substitution) :
    ∀ ts : List Ty, typeVarsList (replaceList s ts) = (typeVarsList ts).flatMap (varsFor s)
  | [] => by rw [replaceList, typeVarsList, List.flatMap_nil]
  | t :: ts => by
    rw [replaceList, typeVarsList, typeVarsList, List.flatMap_append, typeVars_replace s t,
      typeVarsList_replaceList s ts]
theorem typeVarsOption_replaceOption (s : Substitution) :
    ∀ o : Option Ty, typeVarsOption (replaceOption s o) = (typeVarsOption o).flatMap (varsFor s)
  | none => by rw [replaceOption, typeVarsOption, List.flatMap_nil]
  | some t => by rw [replaceOption, typeVarsOption, typeVarsOption, typeVars_replace s t]
end

/-- Replacing by two substitutions in a row is replacing once by their composition, which has for a name
    of the first one its replacement as the second one leaves it, and for any other name what the second
    one has. What is left of the variables of a type, in order: a variable that the substitution does
    not have, and in the place of any other the variables of its replacement. -/
theorem replacing_composes (s₁ s₂ : Substitution) (t : Ty) :
    (t.replace s₁).replace s₂ = t.replace (s₁.andThen s₂) ∧
      (∀ name, (s₁.andThen s₂).find? name =
        ((s₁.find? name).map (replace s₂)).or (s₂.find? name)) ∧
      (t.replace s₁).typeVars =
        t.typeVars.flatMap fun v => ((s₁.find? v.name).map typeVars).getD [v] :=
  ⟨replace_replace s₁ s₂ t, Substitution.find?_andThen s₁ s₂, typeVars_replace s₁ t⟩

-- the first replacement brings in a name of both substitutions, and only the second one sees it
example :
    let t := cls "a.Map" [.var "K" [], .array (.var "V" [])] (some (.wildcard .upper (some (.var "K" []))))
    t.replace (Substitution.andThen [("K", .var "V" [])] [("V", raw "a.B"), ("K", raw "a.C")]) =
      cls "a.Map" [raw "a.B", .array (raw "a.B")] (some (.wildcard .upper (some (raw "a.B")))) := by
  decide +kernel

end Ty

end TypeRecovery
