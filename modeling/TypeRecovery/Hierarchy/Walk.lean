/- Breadth-first walks over names. The walk visits a name once, and only the finitely many names of
   `nodes` lead anywhere, so every visit spends what the name had to offer and the walk ends. -/
namespace TypeRecovery.Walk

/-- What the names not seen yet can still put into the queue. -/
def pending (nodes : List String) (next : String → List String) (seen : List String) : Nat :=
  ((nodes.filter (!seen.contains ·)).flatMap next).length

/-- Where a name leads; a name outside `nodes` leads nowhere. -/
def offers (nodes : List String) (next : String → List String) (name : String) : List String :=
  if nodes.contains name then next name else []

/-- What one name can still put into the queue. -/
theorem pending_node (next : String → List String) (seen : List String) (n : String)
    (ns : List String) : pending (n :: ns) next seen =
      (if seen.contains n then 0 else (next n).length) + pending ns next seen := by
  unfold pending
  rw [List.filter_cons]
  cases seen.contains n with
  | true => exact (Nat.zero_add _).symm
  | false => exact List.length_append

theorem pending_cons_le (nodes : List String) (next : String → List String) (seen : List String)
    (name : String) : pending nodes next (name :: seen) ≤ pending nodes next seen := by
  induction nodes with
  | nil => exact Nat.le_refl _
  | cons n ns ih =>
    rw [pending_node, pending_node]
    refine Nat.add_le_add ?_ ih
    rw [List.contains_cons]
    cases seen.contains n with
    | true => simp
    | false => cases n == name <;> simp

theorem pending_offers (nodes : List String) (next : String → List String) (seen : List String)
    (name : String) (h : seen.contains name = false) :
    pending nodes next (name :: seen) + (offers nodes next name).length ≤
      pending nodes next seen := by
  induction nodes with
  | nil => exact Nat.le_refl _
  | cons n ns ih =>
    rw [pending_node, pending_node]
    by_cases hn : n = name
    · -- the name is spent here, so the rest need not pay for it
      have hle := pending_cons_le ns next seen name
      have hoffers : offers (n :: ns) next name = next n := by simp [offers, hn]
      rw [hoffers, hn, h]
      simp only [List.contains_cons, BEq.rfl, Bool.true_or, if_true, Bool.false_eq_true, if_false]
      omega
    · have hoffers : offers (n :: ns) next name = offers ns next name := by
        simp [offers, Ne.symm hn]
      have hseen : (name :: seen).contains n = seen.contains n := by simp [hn]
      rw [hoffers, hseen]
      omega

/-- The names reached from the queue, in the order of their visit, without those seen before. -/
def breadthFirst (nodes : List String) (next : String → List String) (seen queue : List String) :
    List String :=
  match queue with
  | [] => []
  | name :: rest =>
    if _h : seen.contains name then breadthFirst nodes next seen rest
    else name :: breadthFirst nodes next (name :: seen) (rest ++ offers nodes next name)
termination_by queue.length + pending nodes next seen
decreasing_by
  · simp
  · have := pending_offers nodes next seen name (by simpa using _h)
    simp only [List.length_append, List.length_cons]
    omega

end TypeRecovery.Walk
