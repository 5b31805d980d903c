import Shooting.Proofs.Shapes

/-! # Refused trajectories

A trajectory given from outside is checked as a whole before any of it is taken over: the number of
states, the number of controls, then the shape of every state and that of every control. The first
check that fails is reported, and the solver stays as it was.
-/

namespace Shooting

variable {α : Type}

namespace Tensor

/-- The first array that is not a vector of the length asked for. -/
structure MisshapenAt (ns : List ℕ) (as : List (Tensor α)) (t : ℕ) (shape : Shape) (n : ℕ) :
    Prop where
  given : as[t]?.map (·.shape) = some shape
  wanted : ns[t]? = some n
  differs : shape ≠ [n]
  earlier : ∀ i < t, as[i]?.map (·.shape) = ns[i]?.map ([·])

variable {fault : ℕ → Shape → ℕ → Fault} {t t₀ n : ℕ} {ns : List ℕ} {a : Tensor α}
  {as : List (Tensor α)} {vs : List (Vec α)} {shape : Shape} {f : Fault}

theorem misshapenAt_zero_iff {n' : ℕ} : MisshapenAt (n' :: ns) (a :: as) 0 shape n ↔
    shape = a.shape ∧ n = n' ∧ a.shape ≠ [n'] := by
  constructor
  · rintro ⟨⟨⟩, ⟨⟩, hne, -⟩
    exact ⟨rfl, rfl, hne⟩
  · rintro ⟨rfl, rfl, hne⟩
    exact ⟨rfl, rfl, hne, nofun⟩

theorem misshapenAt_succ_iff {n' : ℕ} (ha : a.shape = [n']) :
    MisshapenAt (n' :: ns) (a :: as) (t + 1) shape n ↔ MisshapenAt ns as t shape n := by
  constructor
  · rintro ⟨hgiven, hwanted, hne, hearlier⟩
    exact ⟨hgiven, hwanted, hne, fun i hi => hearlier (i + 1) (Nat.succ_lt_succ hi)⟩
  · rintro ⟨hgiven, hwanted, hne, hearlier⟩
    refine ⟨hgiven, hwanted, hne, fun i hi => ?_⟩
    cases i with
    | zero => exact congrArg some ha
    | succ i => exact hearlier i (Nat.lt_of_succ_lt_succ hi)

theorem misshapenAt_cons_iff {n' : ℕ} (ha : a.shape ≠ [n']) :
    MisshapenAt (n' :: ns) (a :: as) t shape n ↔ t = 0 ∧ shape = a.shape ∧ n = n' := by
  cases t with
  | zero => simp [misshapenAt_zero_iff, ha]
  | succ t =>
    constructor
    · intro h
      exact absurd (Option.some.inj (h.earlier 0 t.succ_pos)) ha
    · rintro ⟨⟨⟩, -⟩

theorem vectors_eq_error_iff : vectors fault t₀ ns as = .error f ↔
    ∃ t shape n, MisshapenAt ns as t shape n ∧ f = fault (t₀ + t) shape n := by
  induction ns generalizing as t₀ with
  | nil =>
    constructor
    · rintro ⟨⟩
    · rintro ⟨t, shape, n, ⟨-, ⟨⟩, -⟩, -⟩
  | cons n₀ ns ih =>
    rcases as with _ | ⟨a, as⟩
    · constructor
      · rintro ⟨⟩
      · rintro ⟨t, shape, n, ⟨⟨⟩, -⟩, -⟩
    rw [vectors_cons]
    by_cases ha : a.shape = [n₀]
    · have hmap : (vectors fault (t₀ + 1) ns as).map (a.entries :: ·) = .error f ↔
          vectors fault (t₀ + 1) ns as = .error f := by
        cases vectors fault (t₀ + 1) ns as <;> simp [Except.map]
      rw [if_pos ha, hmap, ih]
      constructor
      · rintro ⟨t, shape, n, h, rfl⟩
        exact ⟨t + 1, shape, n, (misshapenAt_succ_iff ha).mpr h, by rw [Nat.add_right_comm]; rfl⟩
      · rintro ⟨_ | t, shape, n, h, rfl⟩
        · exact absurd ha (misshapenAt_zero_iff.mp h).2.2
        · exact ⟨t, shape, n, (misshapenAt_succ_iff ha).mp h, by rw [Nat.add_right_comm]; rfl⟩
    · rw [if_neg ha]
      constructor
      · rintro ⟨⟩
        exact ⟨0, a.shape, n₀, (misshapenAt_cons_iff ha).mpr ⟨rfl, rfl, rfl⟩, rfl⟩
      · rintro ⟨t, shape, n, h, rfl⟩
        obtain ⟨rfl, rfl, rfl⟩ := (misshapenAt_cons_iff ha).mp h
        rfl

theorem MisshapenAt.ne (h : MisshapenAt ns as t shape n) : as.map (·.shape) ≠ ns.map ([·]) := by
  intro heq
  have ht := congrArg (·[t]?) heq
  rw [List.getElem?_map, List.getElem?_map, h.given, h.wanted] at ht
  exact h.differs (Option.some.inj ht)

theorem vectors_eq_ok_iff (hlen : as.length = ns.length) : vectors fault t₀ ns as = .ok vs ↔
    as.map (·.shape) = ns.map ([·]) ∧ vs = as.map (·.entries) := by
  induction ns generalizing as vs t₀ with
  | nil =>
    obtain rfl := List.eq_nil_of_length_eq_zero hlen
    constructor
    · rintro ⟨⟩
      exact ⟨rfl, rfl⟩
    · rintro ⟨-, rfl⟩
      rfl
  | cons n ns ih =>
    obtain ⟨a, as, rfl⟩ := List.exists_cons_of_length_eq_add_one hlen
    rw [vectors_cons, List.map_cons, List.map_cons, List.map_cons, List.cons.injEq]
    by_cases ha : a.shape = [n]
    · rw [if_pos ha]
      constructor
      · intro h
        obtain ⟨ws, hws, rfl⟩ := map_cons_ok h
        obtain ⟨hshapes, rfl⟩ := (ih (Nat.succ.inj hlen)).mp hws
        exact ⟨⟨ha, hshapes⟩, rfl⟩
      · rintro ⟨⟨-, hshapes⟩, rfl⟩
        rw [(ih (Nat.succ.inj hlen)).mpr ⟨hshapes, rfl⟩]
        rfl
    · rw [if_neg ha]
      constructor
      · rintro ⟨⟩
      · rintro ⟨⟨hshape, -⟩, -⟩
        exact absurd hshape ha

end Tensor

namespace Problem

structure Conforms (p : Problem α) (xs us : List (Tensor α)) : Prop where
  states : xs.length = p.horizon + 1
  controls : us.length = p.horizon
  state : ∀ (t : ℕ) (a : Tensor α) (m : Model α), xs[t]? = some a → p.models[t]? = some m →
    a.shape = [m.state.nx]
  control : ∀ (t : ℕ) (a : Tensor α) (m : Model α), us[t]? = some a → p.running[t]? = some m →
    a.shape = [m.nu]

/-- The first check that arrays do not pass, as the fault that reports it. -/
inductive Refuses (p : Problem α) (xs us : List (Tensor α)) : Fault → Prop
  | states (h : xs.length ≠ p.horizon + 1) :
    Refuses p xs us (.stateCount (p.horizon + 1) xs.length)
  | controls (hx : xs.length = p.horizon + 1) (h : us.length ≠ p.horizon) :
    Refuses p xs us (.controlCount p.horizon us.length)
  | state {t : ℕ} {shape : Shape} {n : ℕ} (hx : xs.length = p.horizon + 1)
    (hu : us.length = p.horizon) (h : Tensor.MisshapenAt (p.models.map (·.state.nx)) xs t shape n) :
    Refuses p xs us (.stateShape t shape n)
  | control {t : ℕ} {shape : Shape} {n : ℕ} (hx : xs.length = p.horizon + 1)
    (hu : us.length = p.horizon)
    (hstates : xs.map (·.shape) = (p.models.map (·.state.nx)).map ([·]))
    (h : Tensor.MisshapenAt (p.running.map (·.nu)) us t shape n) :
    Refuses p xs us (.controlShape t shape n)

variable {p : Problem α} {xs us : List (Tensor α)} {f : Fault}

theorem Refuses.family (h : p.Refuses xs us f) : f.family = .dimension := by
  cases h <;> rfl

theorem Refuses.code (h : p.Refuses xs us f) : f.code = some .dimensionMismatch := by
  cases h <;> rfl

theorem forall_shape_iff {ms : List (Model α)} {as : List (Tensor α)} {dim : Model α → ℕ}
    (hlen : as.length = ms.length) : as.map (·.shape) = (ms.map dim).map ([·]) ↔
      ∀ (t : ℕ) (a : Tensor α) (m : Model α), as[t]? = some a → ms[t]? = some m →
        a.shape = [dim m] := by
  constructor
  · intro h t a m ha hm
    have ht := congrArg (·[t]?) h
    simpa [ha, hm] using ht
  · intro h
    apply List.ext_getElem (by simp [hlen])
    intro t ht ht'
    simp only [List.length_map] at ht ht'
    simpa using h t as[t] ms[t] (List.getElem?_eq_getElem ht) (List.getElem?_eq_getElem ht')

theorem Conforms.shapes (h : p.Conforms xs us) :
    xs.map (·.shape) = (p.models.map (·.state.nx)).map ([·]) ∧
      us.map (·.shape) = (p.running.map (·.nu)).map ([·]) :=
  ⟨(forall_shape_iff (h.states.trans p.length_models.symm)).mpr h.state,
    (forall_shape_iff h.controls).mpr h.control⟩

theorem Conforms.not_refuses (h : p.Conforms xs us) : ¬ p.Refuses xs us f := by
  obtain ⟨hstates, hcontrols⟩ := h.shapes
  rintro (hx | ⟨hx, hu⟩ | ⟨hx, hu, hs⟩ | ⟨hx, hu, hs, hc⟩)
  · exact hx h.states
  · exact hu h.controls
  · exact hs.ne hstates
  · exact hc.ne hcontrols

def checked (p : Problem α) (xs us : List (Tensor α)) : Except Fault (Trajectory α) :=
  if xs.length ≠ p.horizon + 1 then .error (.stateCount (p.horizon + 1) xs.length)
  else if us.length ≠ p.horizon then .error (.controlCount p.horizon us.length)
  else
    (Tensor.vectors .stateShape 0 (p.models.map (·.state.nx)) xs).bind fun xs =>
      (Tensor.vectors .controlShape 0 (p.running.map (·.nu)) us).map fun us => { xs, us }

/-- Arrays are either taken over as they stand, or refused for the first check that fails. -/
theorem checked_cases (p : Problem α) (xs us : List (Tensor α)) :
    (p.Conforms xs us ∧
      p.checked xs us = .ok { xs := xs.map (·.entries), us := us.map (·.entries) }) ∨
    ∃ f, p.Refuses xs us f ∧ p.checked xs us = .error f := by
  unfold checked
  by_cases hx : xs.length = p.horizon + 1
  case neg => exact .inr ⟨_, .states hx, if_pos hx⟩
  by_cases hu : us.length = p.horizon
  case neg => exact .inr ⟨_, .controls hx hu, by rw [if_neg (not_not.mpr hx), if_pos hu]⟩
  rw [if_neg (not_not.mpr hx), if_neg (not_not.mpr hu)]
  cases hvx : Tensor.vectors .stateShape 0 (p.models.map (·.state.nx)) xs with
  | error f =>
    obtain ⟨t, shape, n, h, rfl⟩ := Tensor.vectors_eq_error_iff.mp hvx
    rw [Nat.zero_add]
    exact .inr ⟨_, .state hx hu h, rfl⟩
  | ok vs =>
    obtain ⟨hstates, rfl⟩ := (Tensor.vectors_eq_ok_iff (by simp [hx])).mp hvx
    cases hvu : Tensor.vectors .controlShape 0 (p.running.map (·.nu)) us with
    | error f =>
      obtain ⟨t, shape, n, h, rfl⟩ := Tensor.vectors_eq_error_iff.mp hvu
      rw [Nat.zero_add]
      exact .inr ⟨_, .control hx hu hstates h, rfl⟩
    | ok ws =>
      obtain ⟨hcontrols, rfl⟩ := (Tensor.vectors_eq_ok_iff (by simp [hu, horizon])).mp hvu
      refine .inl ⟨⟨hx, hu, ?_, ?_⟩, rfl⟩
      · exact (forall_shape_iff (hx.trans p.length_models.symm)).mp hstates
      · exact (forall_shape_iff hu).mp hcontrols

theorem Refuses.checked (h : p.Refuses xs us f) : p.checked xs us = .error f := by
  unfold Problem.checked
  cases h with
  | states hx => exact if_pos hx
  | controls hx hu => rw [if_neg (not_not.mpr hx), if_pos hu]
  | state hx hu hs =>
    rw [if_neg (not_not.mpr hx), if_neg (not_not.mpr hu),
      Tensor.vectors_eq_error_iff.mpr ⟨_, _, _, hs, rfl⟩, Nat.zero_add]
    rfl
  | control hx hu hs hc =>
    rw [if_neg (not_not.mpr hx), if_neg (not_not.mpr hu),
      (Tensor.vectors_eq_ok_iff (by simp [hx])).mpr ⟨hs, rfl⟩,
      Tensor.vectors_eq_error_iff.mpr ⟨_, _, _, hc, rfl⟩, Nat.zero_add]
    rfl

theorem checked_eq_error_iff : p.checked xs us = .error f ↔ p.Refuses xs us f := by
  constructor
  · intro h
    rcases p.checked_cases xs us with ⟨-, hok⟩ | ⟨f', hf', herror⟩
    · cases h.symm.trans hok
    · cases h.symm.trans herror
      exact hf'
  · exact Refuses.checked

theorem exists_refuses_iff : (∃ f, p.Refuses xs us f) ↔ ¬ p.Conforms xs us := by
  constructor
  · rintro ⟨f, hf⟩ h
    exact h.not_refuses hf
  · intro h
    rcases p.checked_cases xs us with ⟨hconforms, -⟩ | ⟨f, hf, -⟩
    · exact absurd hconforms h
    · exact ⟨f, hf⟩

end Problem

namespace Solver

variable [Scalar α]

/-- Setting a candidate is all or nothing, with default arrays in place of none. -/
structure SetsExactly (s : Solver α) (xs us : List (Tensor α)) (feasible : Bool) : Prop where
  raises_iff : (∃ f, (s.setCandidate xs us feasible).2 = .error f) ↔
    ¬ s.problem.Conforms (Problem.chosen xs s.problem.defaultStates)
      (Problem.chosen us s.problem.defaultControls)
  reports : ∀ f, (s.setCandidate xs us feasible).2 = .error f ↔
    s.problem.Refuses (Problem.chosen xs s.problem.defaultStates)
      (Problem.chosen us s.problem.defaultControls) f
  family : ∀ f, (s.setCandidate xs us feasible).2 = .error f →
    f.family = .dimension ∧ f.code = some .dimensionMismatch
  refused : ∀ f, (s.setCandidate xs us feasible).2 = .error f →
    (s.setCandidate xs us feasible).1 = s
  solve : ∀ f, (s.setCandidate xs us feasible).2 = .error f → ∀ fuel maxiter reginit,
    s.solve fuel xs us maxiter feasible reginit =
      ({ solver := { s with stats := s.stats.reset }, events := [] }, .raised f)
  accepted : (s.setCandidate xs us feasible).2 = .ok () → (s.setCandidate xs us feasible).1 =
    { s with
      candidate :=
        { xs := (Problem.chosen xs s.problem.defaultStates).map (·.entries)
          us := (Problem.chosen us s.problem.defaultControls).map (·.entries)
          feasible } }
  default : s.setCandidate [] [] feasible =
    ({ s with
      candidate :=
        { xs := s.problem.defaultStates, us := s.problem.defaultControls, feasible } }, .ok ())

end Solver

theorem Problem.trajectory_default [Scalar α] {p : Problem α} (hp : p.WellFormed) :
    p.trajectory [] [] = .ok { xs := p.defaultStates, us := p.defaultControls } := by
  have hchosen (vs : List (Vec α)) : chosen (vs.map .ofVec) vs = chosen [] vs := by
    unfold chosen
    split <;> rfl
  rw [trajectory_eq, ← hchosen, ← hchosen, ← trajectory_eq]
  exact trajectory_ofVec hp.shaped_default

namespace Solver

variable [Scalar α] {s : Solver α} {xs us : List (Tensor α)} {feasible : Bool}

theorem setCandidate_error {f : Fault} (h : s.problem.trajectory xs us = .error f) :
    s.setCandidate xs us feasible = (s, .error f) := by
  rw [setCandidate, h]

theorem setCandidate_ok {c : Trajectory α} (h : s.problem.trajectory xs us = .ok c) :
    s.setCandidate xs us feasible = ({ s with candidate := { c with feasible } }, .ok ()) := by
  rw [setCandidate, h]

theorem setCandidate_eq_error_iff {f : Fault} :
    (s.setCandidate xs us feasible).2 = .error f ↔ s.problem.trajectory xs us = .error f := by
  cases h : s.problem.trajectory xs us with
  | error f' => rw [setCandidate_error h, Except.error.injEq, Except.error.injEq]
  | ok c => rw [setCandidate_ok h]; simp

/-- A solver for a problem that has been built takes over a candidate exactly, or not at all. -/
theorem setCandidate_exact {x0 : Tensor α} (hx0 : x0.Valid) {running : List (Model α)}
    {terminal : Model α} (s : Solver α) (hbuild : Problem.build x0 running terminal = .ok s.problem)
    (xs us : List (Tensor α)) (feasible : Bool) : s.SetsExactly xs us feasible := by
  have hchecked : s.problem.trajectory xs us =
      s.problem.checked (Problem.chosen xs s.problem.defaultStates)
        (Problem.chosen us s.problem.defaultControls) := Problem.trajectory_eq _ _ _
  have hreports (f : Fault) : (s.setCandidate xs us feasible).2 = .error f ↔
      s.problem.Refuses (Problem.chosen xs s.problem.defaultStates)
        (Problem.chosen us s.problem.defaultControls) f := by
    rw [setCandidate_eq_error_iff, hchecked, Problem.checked_eq_error_iff]
  constructor
  case raises_iff => rw [← Problem.exists_refuses_iff, exists_congr hreports]
  case reports => exact hreports
  case family => exact fun f hf => ⟨((hreports f).mp hf).family, ((hreports f).mp hf).code⟩
  case refused =>
    intro f hf
    rw [setCandidate_error (setCandidate_eq_error_iff.mp hf)]
  case solve =>
    intro f hf fuel maxiter reginit
    exact solve_refused (setCandidate_eq_error_iff.mp hf) fuel maxiter feasible reginit
  case accepted =>
    intro hok
    rcases s.problem.checked_cases (Problem.chosen xs s.problem.defaultStates)
      (Problem.chosen us s.problem.defaultControls) with ⟨-, h⟩ | ⟨f, hf, -⟩
    · rw [setCandidate_ok (hchecked.trans h)]
    · cases hok.symm.trans ((hreports f).mpr hf)
  case default =>
    exact setCandidate_ok (Problem.trajectory_default (Problem.wellFormed_of_build hx0 hbuild))

theorem setCandidate_exact_integrator :
    let p : Problem ℝ := .integrator [1, 2] 2
    let s := (create p .lenient).after [.setCandidate [] [] true, .tryStep 1]
    let us : List (Tensor ℝ) := [.ofVec [0, 1], .scalar 1]
    s.setCandidate [] us true = (s, .error (.controlShape 1 [] 2)) ∧
      s.solve 1 [] us 5 true none =
        ({ solver := { s with stats := s.stats.reset }, events := [] },
          .raised (.controlShape 1 [] 2)) := by
  intro p s us
  have hbuild : Problem.build (.ofVec [1, 2]) [.integrator 2, .integrator 2] (.resting 2) =
      .ok p := rfl
  have hproblem : s.problem = p := problem_after _
  have hexact := setCandidate_exact (Tensor.valid_ofVec _) s (hproblem ▸ hbuild) [] us true
  -- the solver is held fixed from here on, or its past would be run through again
  clear_value s
  have hrefuses : (s.setCandidate [] us true).2 = .error (.controlShape 1 [] 2) := by
    rw [hexact.reports, hproblem]
    refine .control rfl rfl rfl ⟨rfl, rfl, nofun, ?_⟩
    intro i hi
    obtain rfl := Nat.lt_one_iff.mp hi
    rfl
  exact ⟨Prod.ext (hexact.refused _ hrefuses) hrefuses, hexact.solve _ hrefuses 1 5 none⟩

end Solver
end Shooting
