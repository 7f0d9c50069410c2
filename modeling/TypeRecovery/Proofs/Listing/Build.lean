import TypeRecovery.Listing.Build
import TypeRecovery.Proofs.Graph.Edits

/- What a listing builds. `Builds P x Q`: if a step starts from a graph with `P` and has a result, it
   has only edited the graph, and `Q` holds of the result and the graph it leaves. The graph of a
   method that was built is intact, and no variable of it has a type, a bound or a pin. -/
namespace TypeRecovery.Listing

open MethodGraph

def Builds {ε α : Type} (P : MethodGraph → Prop) (x : Build ε α) (Q : α → MethodGraph → Prop) : Prop :=
  ∀ d a d', P d.graph → x d = .ok (a, d') → Edited d.graph d'.graph ∧ Q a d'.graph

/-- A step that builds whatever it starts from, with nothing said of its result. -/
abbrev Sound {ε α : Type} (x : Build ε α) : Prop := Builds (fun _ => True) x fun _ _ => True

namespace Builds

section
variable {ε δ α β : Type} {P : MethodGraph → Prop}
variable {Q : α → MethodGraph → Prop} {R : β → MethodGraph → Prop}

theorem pure' {a : α} (h : ∀ g, P g → Q a g) : Builds P (pure a : Build ε α) Q := by
  intro d b d' hd hx
  cases hx
  exact ⟨.refl _, h _ hd⟩

theorem done' (a : α) : Builds P (pure a : Build ε α) fun _ _ => True := pure' fun _ _ => trivial

theorem throw' (e : ε) : Builds P (throw e : Build ε α) Q := by
  intro d b d' hd hx
  cases hx

theorem bind' {x : Build ε α} {f : α → Build ε β} (hx : Builds P x Q) (hf : ∀ a, Builds (Q a) (f a) R) :
    Builds P (x >>= f) R := by
  intro d b d'' hd h
  have h : (x d >>= fun p => f p.1 p.2) = .ok (b, d'') := h
  rcases hr : x d with e | ⟨a, d'⟩
  · rw [hr] at h
    cases h
  · rw [hr] at h
    obtain ⟨hxe, hxq⟩ := hx d a d' hd hr
    obtain ⟨hfe, hfq⟩ := hf a d' b d'' hxq h
    exact ⟨hxe.trans hfe, hfq⟩

theorem lift' (x : Except ε α) : Sound (liftM x : Build ε α) := by
  intro d a d' _ hx
  cases x with
  | error e => cases hx
  | ok b =>
    cases hx
    exact ⟨.refl _, trivial⟩

theorem get' {f : Draft → Build ε β} (hf : ∀ d, Builds P (f d) R) : Builds P (get >>= f) R :=
  fun d b d' hd h => hf d d b d' hd h

theorem ite' {c : Prop} [Decidable c] {x y : Build ε α} (hx : c → Builds P x Q)
    (hy : ¬c → Builds P y Q) : Builds P (if c then x else y) Q := by
  by_cases h : c
  · rw [if_pos h]; exact hx h
  · rw [if_neg h]; exact hy h

/-- A check before the rest of a step. -/
theorem guard' {c : Prop} [Decidable c] {e : ε} {rest : PUnit → Build ε α} (h : Builds P (rest ⟨⟩) Q) :
    Builds P (if c then throw e >>= rest else rest ⟨⟩) Q :=
  ite' (fun _ _ _ _ _ hx => by cases hx) fun _ => h

/-- A step that is sometimes taken before the rest. -/
theorem first' {c : Prop} [Decidable c] {x : Build ε PUnit} {rest : PUnit → Build ε α} (hx : Sound x)
    (h : Builds (fun _ => True) (rest ⟨⟩) Q) :
    Builds (fun _ => True) (if c then x >>= rest else rest ⟨⟩) Q :=
  ite' (fun _ => bind' hx fun _ => h) fun _ => h

theorem within {f : ε → δ} {x : Build ε α} (h : Builds P x Q) : Builds P (Build.within f x) Q := by
  intro d a d' hd hx
  unfold Build.within at hx
  split at hx
  · next r hr =>
    cases hx
    exact h d a d' hd hr
  · cases hx

theorem onGraph' {f : MethodGraph → MethodGraph} (h : ∀ g, P g → Edited g (f g)) :
    Builds P (onGraph f : Build ε Unit) fun _ _ => True := by
  intro d a d' hd hx
  cases hx
  exact ⟨h _ hd, trivial⟩

theorem fromGraph' {f : MethodGraph → α × MethodGraph} (he : ∀ g, Edited g (f g).2)
    (hq : ∀ g, Q (f g).1 (f g).2) : Builds P (fromGraph f : Build ε α) Q := by
  intro d a d' hd hx
  cases hx
  exact ⟨he _, hq _⟩

theorem soundFromGraph {f : MethodGraph → α × MethodGraph} (he : ∀ g, Edited g (f g).2) :
    Sound (fromGraph f : Build ε α) := fromGraph' he fun _ => trivial

/-- A step that leaves the graph alone. -/
theorem modify' {f : Draft → Draft} (h : ∀ d, (f d).graph = d.graph) :
    Builds P (modify f : Build ε Unit) fun _ => P := by
  intro d a d' hd hx
  cases hx
  rw [h]
  exact ⟨.refl _, hd⟩

theorem forM' {f : α → Build ε Unit} (l : List α) (h : ∀ a, Sound (f a)) : Sound (l.forM f) := by
  induction l with
  | nil => exact done' _
  | cons a l ih => exact bind' (h a) fun _ => ih

theorem mapM' {f : α → Build ε β} (l : List α) (h : ∀ a, Sound (f a)) : Sound (l.mapM f) := by
  induction l with
  | nil => exact done' _
  | cons a l ih =>
    rw [List.mapM_cons]
    exact bind' (h a) fun _ => bind' ih fun _ => done' _

theorem map' {f : α → β} {x : Build ε α} (h : Sound x) : Sound (f <$> x) := by
  rw [map_eq_pure_bind]
  exact bind' h fun _ => done' _

end
end Builds

open Builds

/-! ## Types and names -/

theorem sound_readType? (extra : List TypeVar) (s : String) : Sound (readType? extra s) := by
  unfold readType?
  refine ite' (fun _ => done' _) fun _ => get' fun d => ?_
  split
  · exact done' _
  · exact throw' _

theorem sound_readTypes (extra : List TypeVar) (ss : List String) : Sound (readTypes extra ss) :=
  mapM' ss (sound_readType? extra)

theorem sound_registerFor {ε : Type} (name : String) : Sound (registerFor name : Build ε Int) := by
  unfold registerFor
  split
  · exact done' _
  · refine get' fun d => bind' (modify' fun _ => rfl) fun _ => done' _

theorem sound_varNamed {ε : Type} (name : String) : Sound (varNamed name : Build ε VarId) := by
  unfold varNamed
  refine get' fun d => ?_
  split
  · exact done' _
  · refine bind' (sound_registerFor name) fun reg => ?_
    refine bind' (soundFromGraph fun g => edited_newVar reg name) fun v => ?_
    exact bind' (modify' fun _ => rfl) fun _ => done' _

theorem sound_addParam (p : ParamDecl) : Sound (addParam p) := by
  unfold addParam
  refine get' fun d => guard' ?_
  refine bind' (sound_readType? [] p.type).within fun t => ?_
  refine bind' (sound_registerFor p.var) fun reg => ?_
  refine bind' (soundFromGraph fun g => edited_newParam reg t p.var) fun v => ?_
  refine bind' (onGraph' fun g _ => ?_) fun _ => modify' fun _ => rfl
  split
  · exact edited_updateSite fun _ => rfl
  · exact .refl g

/-! ## Sites and instructions -/

/-- A site that was read is in the graph. -/
theorem builds_readSite (text : String) :
    Builds (fun _ => True) (readSite text) fun s g => g.Holds s := by
  unfold readSite
  simp only
  refine bind' (sound_readType? _ _).within fun t => ?_
  -- a literal stands in a new site; so does a register, whose variable may be new too
  split
  · split
    · exact fromGraph' (fun g => edited_newSite _) fun g => holds_newSite _
    · exact throw' _
  · refine guard' (bind' (sound_varNamed _) fun v => fromGraph' (fun g => ?_) fun g => ?_)
    · exact (edited_newSite _).trans (edited_updateSite fun _ => rfl)
    · rw [Holds, size_updateSite]
      exact holds_newSite _

theorem sound_addResult (i : InsnId) (text : String) : Sound (addResult i text) := by
  unfold addResult
  refine bind' (builds_readSite text).within fun s => get' fun d => ?_
  split
  · exact throw' _
  · refine get' fun d => guard' (onGraph' fun g hs => edited_setResult i fun u hu => ?_)
    cases hu
    exact hs

theorem sound_addArgs (i : InsnId) (isPhi : Bool) (n : Nat) (texts : List String)
    (sources : List Int) : Sound (addArgs i isPhi n texts sources) := by
  induction texts generalizing n sources with
  | nil => exact done' _
  | cons text texts ih =>
    unfold addArgs
    refine bind' (builds_readSite text).within fun s => ite' (fun _ => ?_) fun _ => ?_
    · refine get' fun d => guard' ?_
      exact bind' (onGraph' fun g hs => edited_addPhiArg i hs _) fun _ => ih _ _
    · exact bind' (onGraph' fun g hs => edited_addArg i hs) fun _ => ih _ _

theorem sound_readOptional {ε α β : Type} {read : α → Build ε β} (h : ∀ a, Sound (read a))
    (a : Option α) : Sound (readOptional read a) := by
  cases a with
  | none => exact done' _
  | some a => exact map' (h a)

theorem sound_readCallee (d : CalleeDecl) (kind : String) : Sound (readCallee d kind) := by
  refine bind' (lift' _) fun kind => within ?_
  refine bind' (sound_readType? _ _) fun _ => bind' (sound_readType? _ _) fun _ => ?_
  refine bind' (sound_readTypes _ _) fun _ => ?_
  exact bind' (sound_readOptional (sound_readTypes _) _) fun _ => done' _

theorem sound_readField (d : FieldDecl) : Sound (readField d) :=
  bind' (sound_readType? _ _) fun _ => done' _

theorem sound_readTarget (d : TargetDecl) : Sound (readTarget d) :=
  bind' (sound_readType? _ _) fun _ => bind' (sound_readTypes _ _) fun _ => done' _

theorem sound_buildInsn (d : InsnDecl) : Sound (buildInsn d) := by
  refine bind' (lift' _) fun op => bind' (soundFromGraph fun g => edited_newInsn rfl) fun i => ?_
  refine first' (sound_addResult i d.result) (guard' ?_)
  refine bind' (sound_addArgs i _ 0 d.args d.incoming) fun _ => ?_
  refine bind' (sound_readType? _ _).within fun _ => bind' (sound_readType? _ _).within fun _ => ?_
  refine bind' (sound_readTypes _ _).within fun _ => ?_
  refine bind' (sound_readOptional (fun a => sound_readCallee a _) _).within fun _ => ?_
  refine bind' (sound_readOptional sound_readField _).within fun _ => ?_
  refine bind' (sound_readOptional sound_readTarget _).within fun _ => guard' ?_
  exact bind' (onGraph' fun g _ => edited_touchInsn fun _ => rfl) fun _ => done' _

/-! ## Whole methods -/

theorem sound_addEdges (i : Nat) (b : BlockDecl) : Sound (addEdges i b) :=
  forM' b.succs fun _ => get' fun _ => guard' (onGraph' fun _ _ => edited_connect _ _)

theorem sound_addCode (i : Nat) (b : BlockDecl) : Sound (addCode i b) :=
  forM' _ fun (d, _) => bind' (sound_buildInsn d).within fun _ =>
    onGraph' fun _ _ => edited_insertAt _ _ _

theorem sound_readExpected (name text : String) : Sound (readExpected name text) :=
  get' fun _ => guard' (bind' (sound_readType? _ _).within fun _ => done' _)

theorem sound_addTypeVar (text : String) : Sound (addTypeVar text) := by
  refine get' fun d => ?_
  split
  · exact onGraph' fun g _ => edited_of_same rfl rfl rfl
  · exact throw' _

theorem sound_buildMethod (m : MethodDecl) : Sound (buildMethod m) := by
  unfold buildMethod
  refine bind' (forM' _ sound_addTypeVar) fun _ => bind' (forM' _ sound_addParam) fun _ => ?_
  refine bind' (forM' _ fun _ => onGraph' fun g _ => edited_newBlock _) fun _ => ?_
  refine bind' (forM' _ fun _ => sound_addEdges _ _) fun _ => ?_
  exact bind' (forM' _ fun _ => sound_addCode _ _) fun _ => mapM' _ fun _ => sound_readExpected _ _

/-- A built graph is intact, and inference has not begun on it. -/
theorem build_intact {m : MethodDecl} {b : Built} (h : m.build = .ok b) :
    b.graph.Intact ∧ ∀ v, (b.graph.var v).typing = (none, [], none) := by
  unfold MethodDecl.build at h
  simp only at h
  split at h
  · next expect d hd =>
    cases h
    obtain ⟨he, -⟩ := sound_buildMethod m _ _ _ trivial hd
    refine ⟨he.intact ⟨?_, ?_, ?_⟩, fun v => (he.typing v).trans rfl⟩
    · intro v s hs
      cases hs
    · intro v s hs
      cases hs
    · intro i s hs
      cases hs
  · cases h

end TypeRecovery.Listing
