import TypeRecovery.Proofs.Inference.Composition

/- What inference reports on its way. Open sites are reported at the very end of finishing and nowhere
   else: no resolver reports one, and neither does mending or settling, with a fault or without. -/
namespace TypeRecovery.Inference

/-- How many open sites a journal tells of. -/
def openReports (j : Journal) : Nat := j.countP fun d => d.code == "E001"

/-- The code of an open site is that of no other notice. -/
theorem code_eq_unresolved {n : Notice} :
    n.code = "E001" ↔ ∃ site place, n = .unresolved site place := by
  cases n <;> simp [Notice.code]

theorem openReports_append_one (j : Journal) (n : Notice) (method : String) :
    openReports (j ++ [n.diagnostic method]) = openReports j + if n.code = "E001" then 1 else 0 := by
  have hcode : (n.diagnostic method).code = n.code := rfl
  simp [openReports, List.countP_append, List.countP_singleton, hcode]

/-- The step reports no open site. -/
structure Quiet {α : Type} (m : Infer α) : Prop where
  count : ∀ c s, openReports (m.after c s).2.journal = openReports s.journal

/-- The two states have as many reports of open sites. -/
def SameReports (s s' : Session) : Prop := openReports s'.journal = openReports s.journal

instance : IsPreorder Session SameReports where
  refl _ := rfl
  trans _ _ _ h h' := h'.trans h

theorem composes_sameReports : Composes fun m => ∀ c s, SameReports s (m.after c s).2 := by
  refine composes_of_session (fun _ _ _ _ => rfl) (fun _ _ => rfl) (fun s n hn => ?_) fun _ _ _ => rfl
  rw [SameReports, openReports_append_one, if_neg fun hcode => ?_, Nat.add_zero]
  obtain ⟨site, place, rfl⟩ := code_eq_unresolved.mp hcode
  exact hn site place rfl

theorem quiet_run : Quiet run := ⟨composes_sameReports.run'⟩

theorem quiet_settleAll : Quiet settleAll := ⟨composes_sameReports.settleAll'⟩

/-- All notices are reported, in their order. -/
theorem after_reports (notices : List Notice) (c : Context) (s : Session) :
    ((notices.forM report).after c s).1 = .ok () ∧
      ((notices.forM report).after c s).2.graph = s.graph ∧
      ((notices.forM report).after c s).2.journal =
        s.journal ++ notices.map (·.diagnostic s.graph.fullName) := by
  induction notices generalizing s with
  | nil => exact ⟨rfl, rfl, (List.append_nil _).symm⟩
  | cons n notices ih =>
    obtain ⟨hok, hg, hj⟩ := ih { s with journal := s.journal ++ [n.diagnostic s.graph.fullName] }
    refine ⟨hok, hg, hj.trans ?_⟩
    rw [List.map_cons, List.append_assoc, List.singleton_append]

/-- Each notice of finishing is one of an open site. -/
theorem openReports_openNotices (g : MethodGraph) (j : Journal) (method : String) :
    openReports (j ++ (openNotices g).map (·.diagnostic method)) =
      openReports j + (openNotices g).length := by
  have hcode : ∀ d ∈ (openNotices g).map (·.diagnostic method), (d.code == "E001") = true := by
    intro d hd
    obtain ⟨n, hn, rfl⟩ := List.mem_map.mp hd
    have hkind : ∃ site place, n = .unresolved site place := by
      rcases List.mem_append.mp hn with hn | hn
      · obtain ⟨i, -, hi⟩ := List.mem_filterMap.mp hn
        obtain ⟨s, -, rfl⟩ := Option.map_eq_some_iff.mp hi
        exact ⟨_, _, rfl⟩
      · obtain ⟨v, -, rfl⟩ := List.mem_map.mp hn
        exact ⟨_, _, rfl⟩
    exact beq_iff_eq.mpr (code_eq_unresolved.mpr hkind)
  rw [openReports, openReports, List.countP_append, List.countP_eq_length.mpr hcode, List.length_map]

/-- If finishing comes to a result, that is the number of notices of what is open in the graph that it
    leaves, and as many open sites were reported. -/
theorem finish_counts {c : Context} {s s' : Session} {n : Nat}
    (h : finish.after c s = (.ok n, s')) :
    n = (openNotices s'.graph).length ∧
      openReports s'.journal = openReports s.journal + (openNotices s'.graph).length := by
  rw [finish_eq] at h
  obtain ⟨_, s₁, h₁, h⟩ := ok_of_after_bind h
  rw [after_theGraph] at h
  obtain ⟨_, s₂, h₂, h⟩ := ok_of_after_bind h
  cases h
  have hquiet := quiet_settleAll.count c s
  obtain ⟨-, hg, hj⟩ := after_reports (openNotices s₁.graph) c s₁
  rw [h₁] at hquiet
  rw [h₂] at hg hj
  simp only at hquiet hg hj
  rw [hg, hj, openReports_openNotices, hquiet]
  exact ⟨rfl, rfl⟩

end TypeRecovery.Inference
