import Shooting.Model.Symbolic
import Shooting.Proofs.Chaining
import Shooting.Proofs.Rollout

/-! # Models that are accepted

A model is accepted with or without dynamics. Without them it stays at its state, and all that is
asked of the manifold of the following state is the tangent dimension. So a circle may follow a
line, and the state that a rollout arrives at has the wrong length. Nothing else can go wrong.
-/

namespace Shooting

variable {α : Type}

namespace Model

/-- The model with given functions for its cost, its dynamics and its derivatives. Absent dynamics
the following state is the state itself, and absent a manifold for it, it is that of the state. -/
def ofFunctions (state : Manifold) (cost : Vec α → Vec α → Except Fault α)
    (dynamics : Option (Vec α → Vec α → Except Fault (Vec α))) (nu : ℤ) (next : Option Manifold)
    (deriv : Vec α → Vec α → Except Fault (Linearization α)) : Except Fault (Model α) :=
  if nu < 0 then .error (.controlDimension nu)
  else if dynamics.isNone && 0 < nu then .error .dynamicsMissing
  else if dynamics.isNone && next.any (·.ndx ≠ state.ndx) then .error .dimensionChange
  else
    .ok
      { state
        next := next.getD state
        nu := nu.toNat
        hasDynamics := dynamics.isSome
        eval := fun x u => do
          let c ← cost x u
          let y ← (dynamics.map fun f => f x u).getD (.ok x)
          return (c, y)
        deriv }

theorem ofExprs_eq_ofFunctions [Scalar α] (state : Manifold) (cost : Expr α)
    (dynamics : Option (Dynamics α)) (nu : ℤ) (next : Option Manifold) (guard : Option (Guard α)) :
    ofExprs state cost dynamics nu next guard =
      ofFunctions state
        (fun x u => do
          if let some g := guard then g.check x
          return cost.eval x u)
        (dynamics.map fun d x u => .ok ((d.embedding state).map (Expr.eval x u))) nu next
        (fun x u => .ok
          (slopes state (next.getD state) nu.toNat cost (dynamics.map (·.embedding state)) x u)) := by
  simp only [ofExprs, ofFunctions, Option.isNone_map, Option.isSome_map]
  split_ifs
  · rfl
  · rfl
  · rfl
  · congr 2
    funext x u
    cases dynamics <;> rcases guard with _ | g <;> try rfl
    all_goals
      change (g.check x >>= fun _ => _) = ((g.check x >>= fun _ => _) >>= fun _ => _)
      cases g.check x <;> rfl

def Constructed (m : Model α) : Prop :=
  ∃ state cost dynamics nu next deriv, ofFunctions state cost dynamics nu next deriv = .ok m

theorem constructed_of_ofExprs [Scalar α] {state : Manifold} {cost : Expr α}
    {dynamics : Option (Dynamics α)} {nu : ℤ} {next : Option Manifold} {guard : Option (Guard α)}
    {m : Model α} (h : ofExprs state cost dynamics nu next guard = .ok m) : m.Constructed := by
  rw [ofExprs_eq_ofFunctions] at h
  exact ⟨_, _, _, _, _, _, h⟩

variable {m : Model α} {x u y : Vec α} {c : α}

theorem Constructed.static (h : m.Constructed) (hm : m.hasDynamics = false) :
    m.nu = 0 ∧ m.next.ndx = m.state.ndx ∧
      ∀ x u c y, m.eval x u = .ok (c, y) → y = x := by
  obtain ⟨state, cost, _ | f, nu, next, deriv, h⟩ := h
  case some =>
    unfold ofFunctions at h
    split_ifs at h
    cases h
    cases hm
  unfold ofFunctions at h
  split_ifs at h with hneg hnu hndx
  cases h
  refine ⟨?_, ?_, ?_⟩
  · simp only [Option.isNone_none, Bool.true_and, decide_eq_true_eq] at hnu
    exact Int.toNat_of_nonpos (not_lt.mp hnu)
  · cases next with
    | none => rfl
    | some M => simpa using hndx
  · intro x u c y he
    change (cost x u >>= fun c => .ok (c, x)) = _ at he
    cases hcost : cost x u with
    | error f =>
      rw [hcost] at he
      cases he
    | ok c' =>
      rw [hcost] at he
      cases he
      rfl

theorem Constructed.lands (h : m.Constructed) (hlands : m.hasDynamics = true → m.Lands)
    (hsame : m.hasDynamics = false → m.next = m.state) : m.Lands := by
  cases hm : m.hasDynamics with
  | true => exact hlands hm
  | false =>
    intro x u c y hx hu he
    rw [(h.static hm).2.2 x u c y he, hsame hm]
    exact hx

end Model

namespace Problem

inductive RaisesFrom : List (Model α) → List (Vec α) → Vec α → Prop
  | here {m ms u us x f} : m.eval x u = .error f → RaisesFrom (m :: ms) (u :: us) x
  | later {m ms u us x c y} : m.eval x u = .ok (c, y) → RaisesFrom ms us y →
      RaisesFrom (m :: ms) (u :: us) x

variable {p : Problem α} {ms : List (Model α)} {us xs : List (Vec α)} {x : Vec α} {t : ℕ}

theorem exists_rolls (hu : us.length = ms.length) (h : ¬ RaisesFrom ms us x) :
    ∃ xs, Rolls ms us x xs := by
  induction ms generalizing us x with
  | nil =>
    obtain rfl := List.eq_nil_of_length_eq_zero hu
    exact ⟨_, .nil x⟩
  | cons m ms ih =>
    obtain ⟨u, us, rfl⟩ := List.exists_cons_of_length_eq_add_one hu
    cases he : m.eval x u with
    | error f => exact absurd (.here he) h
    | ok r =>
      obtain ⟨xs, hxs⟩ := ih (Nat.succ.inj hu) fun hlater => h (.later he hlater)
      exact ⟨_, .cons he hxs⟩

theorem Rolls.rolloutFrom {ks : List (Knot α)} (hk : ks.length = ms.length)
    (h : Rolls ms us x xs) : (rolloutFrom ms ks us x).2 = .ok xs := by
  induction h generalizing ks with
  | nil x =>
    obtain rfl := List.eq_nil_of_length_eq_zero hk
    rfl
  | cons he _ ih =>
    obtain ⟨k, ks, rfl⟩ := List.exists_cons_of_length_eq_add_one hk
    rw [Problem.rolloutFrom, Model.evaluate, he]
    exact congrArg (Except.map _) (ih (Nat.succ.inj hk))

theorem exists_rollout {ks : Knots α} (hk : ks.running.length = p.horizon)
    (hu : us.length = p.horizon) (h : ¬ RaisesFrom p.running us p.x0) :
    ∃ xs, (p.rollout ks us).2 = .ok xs := by
  obtain ⟨xs, hxs⟩ := exists_rolls hu h
  refine ⟨xs, ?_⟩
  rw [rollout, if_neg (not_not.mpr hu)]
  exact hxs.rolloutFrom hk

def SteadyBefore (p : Problem α) (t : ℕ) : Prop :=
  ∀ i < t, ∀ m, p.running[i]? = some m → m.hasDynamics = false → m.next = m.state

/-- What a rollout arrives at, and what becomes of it as a candidate. -/
structure RolledOut [Scalar α] (p : Problem α) (us xs : List (Vec α)) : Prop where
  length : xs.length = p.horizon + 1
  length_state : ∀ t m, p.SteadyBefore t → p.models[t]? = some m →
    (xs.getD t []).length = m.state.nx
  /-- The first model without dynamics that leads elsewhere leaves the state as long as it was. -/
  length_next : ∀ t m, p.SteadyBefore t → p.running[t]? = some m → m.hasDynamics = false →
    m.next ≠ m.state → (xs.getD (t + 1) []).length = m.state.nx ∧ m.state.nx ≠ m.next.nx
  shaped_iff : p.Shaped xs us ↔ p.SteadyBefore p.horizon
  accepted : p.SteadyBefore p.horizon → ∀ s : Solver α, s.problem = p → ∀ feasible,
    s.setCandidate (xs.map .ofVec) (us.map .ofVec) feasible =
      ({ s with candidate := { xs, us, feasible } }, .ok ())
  refused : ∀ t m, p.SteadyBefore t → p.running[t]? = some m → m.hasDynamics = false →
    m.next ≠ m.state → ∀ s : Solver α, s.problem = p → ∀ feasible,
      s.setCandidate (xs.map .ofVec) (us.map .ofVec) feasible =
        (s, .error (.stateShape (t + 1) [m.state.nx] m.next.nx))

theorem exists_model (ht : t < p.horizon + 1) : ∃ m, p.models[t]? = some m :=
  ⟨_, List.getElem?_eq_getElem (by rwa [length_models])⟩

section

variable (h : p.Follows xs us) (hx : xs.length = p.horizon + 1)
  (hu : us.map List.length = p.running.map (·.nu))
  (hconstructed : ∀ m ∈ p.running, m.Constructed)

include h hx hu hconstructed

theorem Follows.getD_static {m : Model α} (hm : p.running[t]? = some m)
    (hdynamics : m.hasDynamics = false) : xs.getD (t + 1) [] = xs.getD t [] := by
  have ht : t < p.horizon := (List.getElem?_eq_some_iff.mp hm).1
  have hulen : us.length = p.horizon := by simpa [horizon] using congrArg List.length hu
  have hxt := List.getElem?_eq_getElem (l := xs) (i := t) (by omega)
  have hut := List.getElem?_eq_getElem (l := us) (i := t) (by omega)
  obtain ⟨c, y, heval, hy⟩ := h.dynamics t m _ _ hm hxt hut
  have hstays := (hconstructed m (List.mem_of_getElem? hm)).static hdynamics
  rw [List.getD_eq_getElem?_getD, List.getD_eq_getElem?_getD, hy, hxt, hstays.2.2 _ _ c y heval]

variable (hp : p.WellFormed) (hlands : ∀ m ∈ p.running, m.hasDynamics = true → m.Lands)

include hp hlands

theorem Follows.length_steady (ht : p.SteadyBefore t) {m : Model α} (hm : p.models[t]? = some m) :
    (xs.getD t []).length = m.state.nx := by
  refine h.length_state hp hx hu (fun i hi m hm => ?_) hm
  have hmem := List.mem_of_getElem? hm
  exact (hconstructed m hmem).lands (hlands m hmem) (ht i hi m hm)

theorem Follows.length_misshapen (ht : p.SteadyBefore t) {m : Model α}
    (hm : p.running[t]? = some m) (hdynamics : m.hasDynamics = false) (hne : m.next ≠ m.state) :
    (xs.getD (t + 1) []).length = m.state.nx ∧ m.state.nx ≠ m.next.nx := by
  have hstatic := (hconstructed m (List.mem_of_getElem? hm)).static hdynamics
  constructor
  · rw [h.getD_static hx hu hconstructed hm hdynamics]
    exact h.length_steady hx hu hconstructed hp hlands ht (models_running hm)
  · exact fun hnx => hne (Manifold.eq_iff.mpr ⟨hstatic.2.1, hnx.symm⟩)

theorem Follows.shaped_iff_steady : p.Shaped xs us ↔ p.SteadyBefore p.horizon := by
  constructor
  · intro hs t ht m hm hdynamics
    have hstatic := (hconstructed m (List.mem_of_getElem? hm)).static hdynamics
    obtain ⟨m', hm'⟩ := exists_model (Nat.succ_lt_succ ht)
    refine Manifold.eq_iff.mpr ⟨hstatic.2.1, ?_⟩
    calc m.next.nx = m'.state.nx := (hp.chain t _ _ (models_running hm) hm').2
      _ = (xs.getD (t + 1) []).length := (hs.length_state hm').symm
      _ = (xs.getD t []).length := by rw [h.getD_static hx hu hconstructed hm hdynamics]
      _ = m.state.nx := hs.length_state (models_running hm)
  · intro hsteady
    refine h.shaped hp (fun m hm => ?_) hx hu
    obtain ⟨t, ht, rfl⟩ := List.getElem_of_mem hm
    exact (hconstructed _ hm).lands (hlands _ hm) (hsteady t ht _ (List.getElem?_eq_getElem ht))

theorem Follows.misshapenAt (ht : p.SteadyBefore t) {m : Model α} (hm : p.running[t]? = some m)
    (hdynamics : m.hasDynamics = false) (hne : m.next ≠ m.state) :
    Tensor.MisshapenAt (p.models.map (·.state.nx)) (xs.map .ofVec) (t + 1) [m.state.nx]
      m.next.nx := by
  have hlt : t < p.horizon := (List.getElem?_eq_some_iff.mp hm).1
  obtain ⟨m', hm'⟩ := exists_model (Nat.succ_lt_succ hlt)
  have hshape {i n : ℕ} (hi : i < xs.length) (hlen : (xs.getD i []).length = n) :
      (xs.map Tensor.ofVec)[i]?.map (·.shape) = some [n] := by
    rw [List.getElem?_map, List.getElem?_eq_getElem hi]
    rw [List.getD_eq_getElem?_getD, List.getElem?_eq_getElem hi] at hlen
    exact congrArg (fun n => some [n]) hlen
  obtain ⟨hlen, hnx⟩ := h.length_misshapen hx hu hconstructed hp hlands ht hm hdynamics hne
  constructor
  case given => exact hshape (by omega) hlen
  case wanted =>
    rw [List.getElem?_map, hm', (hp.chain t _ _ (models_running hm) hm').2]
    rfl
  case differs => exact fun hshapes => hnx (List.head_eq_of_cons_eq hshapes)
  case earlier =>
    intro i hi
    obtain ⟨mi, hmi⟩ := exists_model (p := p) (t := i) (by omega)
    have hsteady : p.SteadyBefore i := fun j hj => ht j (by omega)
    rw [hshape (by omega) (h.length_steady hx hu hconstructed hp hlands hsteady hmi),
      List.getElem?_map, hmi]
    rfl

theorem Follows.rolledOut [Scalar α] : p.RolledOut us xs where
  length := hx
  length_state _ _ ht hm := h.length_steady hx hu hconstructed hp hlands ht hm
  length_next _ _ ht hm := h.length_misshapen hx hu hconstructed hp hlands ht hm
  shaped_iff := h.shaped_iff_steady hx hu hconstructed hp hlands
  accepted := by
    rintro hsteady s rfl feasible
    have hshaped := (h.shaped_iff_steady hx hu hconstructed hp hlands).mpr hsteady
    exact Solver.setCandidate_ok (trajectory_ofVec hshaped)
  refused := by
    rintro t m ht hm hdynamics hne s rfl feasible
    have hpos : 0 < us.length := by
      have hulen := congrArg List.length hu
      rw [List.length_map, List.length_map] at hulen
      exact hulen ▸ hp.horizon
    have hchosen {vs default : List (Vec α)} (hvs : 0 < vs.length) :
        chosen (vs.map .ofVec) default = vs.map .ofVec :=
      if_neg (by simpa [List.length_pos_iff] using hvs)
    have hmisshapen := h.misshapenAt hx hu hconstructed hp hlands ht hm hdynamics hne
    apply Solver.setCandidate_error
    rw [trajectory_eq, hchosen (by omega), hchosen hpos]
    refine checked_eq_error_iff.mpr (.state ?_ ?_ hmisshapen)
    · rwa [List.length_map]
    · simpa [horizon] using congrArg List.length hu

end

/-- If no model raises a fault, a rollout has a state for every knot. Each has the length of its
knot, save where a model without dynamics leads to another manifold than its own. -/
theorem rolledOut_of_constructed [Scalar α] {x0 : Tensor α} (hx0 : x0.Valid)
    {running : List (Model α)} {terminal : Model α} (hbuild : build x0 running terminal = .ok p)
    (hconstructed : ∀ m ∈ running, m.Constructed)
    (hlands : ∀ m ∈ running, m.hasDynamics = true → m.Lands)
    (hu : us.map List.length = running.map (·.nu)) (hraises : ¬ RaisesFrom running us x0.entries)
    {ks : Knots α} (hks : ks.running.length = running.length) :
    ∃ xs, (p.rollout ks us).2 = .ok xs ∧ p.RolledOut us xs := by
  have hp : p.WellFormed := wellFormed_of_build hx0 hbuild
  obtain ⟨-, hparts⟩ := build_eq_ok_iff.mp hbuild
  obtain rfl : running = p.running := by rw [hparts]
  have hx0' : x0.entries = p.x0 := by rw [hparts]
  rw [hx0'] at hraises
  have hulen : us.length = p.horizon := by simpa [horizon] using congrArg List.length hu
  obtain ⟨xs, hxs⟩ := exists_rollout hks hulen hraises
  obtain ⟨hx, hfollows⟩ := follows_of_rollout hks hulen hxs
  exact ⟨xs, hxs, hfollows.rolledOut hx hu hconstructed hp hlands⟩

end Problem

theorem Model.constructed_turn : (turn : Model ℝ).Constructed :=
  ⟨.rotation 0, fun _ u => .ok (Scalar.half * Vec.normSq u - u.coord 0),
    some fun x u => .ok ((Manifold.rotation 0).integrate x u), 1, none, turn.deriv, rfl⟩

theorem Model.constructed_height : (height : Model ℝ).Constructed :=
  ⟨.rotation 0, fun x u => (height.eval x u).map Prod.fst, none, 0, none, height.deriv, rfl⟩

theorem Problem.rolledOut_turn :
    let p : Problem ℝ := { x0 := [1, 0], running := [.turn, .height], terminal := .height }
    build (.ofVec [1, 0]) [.turn, .height] .height = .ok p ∧
      ∃ xs, (p.rollout p.fresh [[1], []]).2 = .ok xs ∧ p.RolledOut [[1], []] xs ∧
        p.SteadyBefore p.horizon := by
  intro p
  have hbuild : build (.ofVec [1, 0]) [.turn, .height] .height = .ok p := rfl
  have hmodels : ∀ m ∈ p.running, m.Constructed ∧ (m.hasDynamics = true → m.Lands) := by
    intro m hm
    rcases List.mem_pair.mp hm with rfl | rfl
    · exact ⟨Model.constructed_turn, fun _ => Model.lands_turn⟩
    · exact ⟨Model.constructed_height, nofun⟩
  have hraises : ¬ RaisesFrom p.running [[1], []] p.x0 := by
    rintro (h | ⟨h, h' | ⟨h', h''⟩⟩)
    · cases h
    · cases h'
    · cases h''
  have hknots : p.fresh.running.length = p.horizon := rfl
  obtain ⟨xs, hxs, hrolled⟩ := rolledOut_of_constructed (Tensor.valid_ofVec [1, 0]) hbuild
    (fun m hm => (hmodels m hm).1) (fun m hm => (hmodels m hm).2) rfl hraises hknots
  refine ⟨hbuild, xs, hxs, hrolled, ?_⟩
  intro t ht m hm hdynamics
  rcases List.mem_pair.mp (List.mem_of_getElem? hm) with rfl | rfl <;> rfl

/-- A line that the circle is meant to follow: the model and the problem are accepted, no model
raises a fault, and what the rollout arrives at is refused as a candidate. -/
theorem Solver.refused_rollout :
    ∃ (m n : Model Float) (p : Problem Float),
      Model.ofExprs (.euclidean 1) (.const 0) none 0 (some (.rotation 0)) none = .ok m ∧
      Model.ofExprs (.rotation 0) (.const 0) none 0 none none = .ok n ∧
      Problem.build (.ofVec [0.5]) [m] n = .ok p ∧ (p.rollout p.fresh [[]]).2 = .ok [[0.5], [0.5]] ∧
      ((create p .standard).setCandidate ([[0.5], [0.5]].map .ofVec) ([[]].map .ofVec) false).2 =
        .error (.stateShape 1 [1] 2) :=
  ⟨_, _, _, rfl, rfl, rfl, rfl, rfl⟩

end Shooting
