import Shooting.Proofs.Curvature
import Shooting.Proofs.Optimality
import Shooting.Proofs.Trajectory

/-! # Linear-quadratic problems

Quadratic costs and affine dynamics in Euclidean coordinates. Two linearizations of such a problem
share their matrices, and what changes between them is determined by the difference of the two
trajectories alone.
-/

namespace Shooting

open Matrix Finset

variable {K : Type} [ExactScalar K]

/-- The cost `½ xᵀQx + xᵀSu + ½ uᵀRu + qᵀx + rᵀu + c` of a state and a control. -/
structure QuadraticCost (K : Type) (n m : ℕ) where
  Q : Matrix (Fin n) (Fin n) K
  S : Matrix (Fin n) (Fin m) K
  R : Matrix (Fin m) (Fin m) K
  q : Fin n → K
  r : Fin m → K
  c : K
  transpose_Q : Qᵀ = Q
  transpose_R : Rᵀ = R

/-- The dynamics `Ax + Bu + b`. -/
structure AffineDynamics (K : Type) (n m k : ℕ) where
  A : Matrix (Fin k) (Fin n) K
  B : Matrix (Fin k) (Fin m) K
  b : Fin k → K

namespace QuadraticCost

variable {n m : ℕ} (l : QuadraticCost K n m) (x dx : Fin n → K) (u du : Fin m → K)

def value : K := quadratic l.Q l.q x + x ⬝ᵥ l.S *ᵥ u + quadratic l.R l.r u + l.c

def slopeX : Fin n → K := l.Q *ᵥ x + l.S *ᵥ u + l.q

def slopeU : Fin m → K := (l.S)ᵀ *ᵥ x + l.R *ᵥ u + l.r

theorem slopeX_add : l.slopeX (x + dx) (u + du) = l.slopeX x u + (l.Q *ᵥ dx + l.S *ᵥ du) := by
  simp only [slopeX, mulVec_add]
  abel

theorem slopeU_add : l.slopeU (x + dx) (u + du) = l.slopeU x u + ((l.S)ᵀ *ᵥ dx + l.R *ᵥ du) := by
  simp only [slopeU, mulVec_add]
  abel

/-- The derivatives and the two products with an increment predict the change of cost exactly. -/
theorem value_add : l.value (x + dx) (u + du) = l.value x u +
    (1 / 2 * (dx ⬝ᵥ (l.Q *ᵥ dx + l.S *ᵥ du)) + l.slopeX x u ⬝ᵥ dx +
      (1 / 2 * (du ⬝ᵥ ((l.S)ᵀ *ᵥ dx + l.R *ᵥ du)) + l.slopeU x u ⬝ᵥ du)) := by
  have hS (v : Fin n → K) (w : Fin m → K) : w ⬝ᵥ (l.S)ᵀ *ᵥ v = v ⬝ᵥ l.S *ᵥ w := by
    rw [mulVec_transpose, dotProduct_comm, dotProduct_mulVec]
  have hS' (v : Fin n → K) (w : Fin m → K) : (l.S)ᵀ *ᵥ v ⬝ᵥ w = v ⬝ᵥ l.S *ᵥ w := by
    rw [dotProduct_comm, hS]
  have hS'' (v : Fin n → K) (w : Fin m → K) : l.S *ᵥ w ⬝ᵥ v = v ⬝ᵥ l.S *ᵥ w := dotProduct_comm _ _
  simp only [value, slopeX, slopeU, quadratic_add l.transpose_Q, quadratic_add l.transpose_R,
    mulVec_add, dotProduct_add, add_dotProduct, hS, hS', hS'']
  ring

end QuadraticCost

def AffineDynamics.next {n m k : ℕ} (f : AffineDynamics K n m k) (x : Fin n → K) (u : Fin m → K) :
    Fin k → K := f.A *ᵥ x + f.B *ᵥ u + f.b

theorem AffineDynamics.next_add {n m k : ℕ} (f : AffineDynamics K n m k) (x dx : Fin n → K)
    (u du : Fin m → K) :
    f.next (x + dx) (u + du) = f.next x u + (f.A *ᵥ dx + f.B *ᵥ du) := by
  simp only [next, mulVec_add]
  abel

def Mat.ofMatrix {m n : ℕ} (M : Matrix (Fin m) (Fin n) K) : Mat K :=
  List.ofFn fun i => List.ofFn (M i)

@[simp] theorem Mat.toMatrix_ofMatrix {m n : ℕ} (M : Matrix (Fin m) (Fin n) K) :
    toMatrix m n (ofMatrix M) = M := by
  ext i j
  simp [ofMatrix, entry_eq]

omit [ExactScalar K] in
theorem Mat.ofMatrix_eq_ofFn {m n : ℕ} {M : Matrix (Fin m) (Fin n) K} {f : ℕ → ℕ → K}
    (h : ∀ i j, M i j = f i j) : Mat.ofMatrix M = Mat.ofFn m n f := by
  apply List.ext_getElem (by simp [ofMatrix])
  intro i hi hi'
  apply List.ext_getElem (by simp [ofMatrix, ofFn])
  intro j hj hj'
  simp [ofMatrix, ofFn, h]

def QuadraticCost.slopes {n m : ℕ} (l : QuadraticCost K n m) (x : Fin n → K) (u : Fin m → K)
    (fx fu : Mat K) : Linearization K where
  lx := List.ofFn (l.slopeX x u)
  lu := List.ofFn (l.slopeU x u)
  lxx := .ofMatrix l.Q
  lxu := .ofMatrix l.S
  luu := .ofMatrix l.R
  fx
  fu

/-- The model never raises a fault, has the given cost, and records its derivatives. -/
structure Model.Quadratic (M : Model K) {n m : ℕ} (l : QuadraticCost K n m) : Prop where
  state : M.state = .euclidean n
  nu : M.nu = m
  eval : ∀ x u, x.length = n → u.length = m →
    ∃ y, M.eval x u = .ok (l.value (Vec.toFun n x) (Vec.toFun m u), y)
  deriv : ∀ x u, x.length = n → u.length = m →
    ∃ fx fu, M.deriv x u = .ok (l.slopes (Vec.toFun n x) (Vec.toFun m u) fx fu)

structure Model.Affine (M : Model K) {n m k : ℕ} (f : AffineDynamics K n m k) : Prop where
  next : M.next = .euclidean k
  eval : ∀ x u r, x.length = n → u.length = m → M.eval x u = .ok r →
    r.2 = List.ofFn (f.next (Vec.toFun n x) (Vec.toFun m u))
  deriv : ∀ x u s, x.length = n → u.length = m → M.deriv x u = .ok s →
    s.fx = .ofMatrix f.A ∧ s.fu = .ofMatrix f.B

/-- Quadratic costs at all knots and affine dynamics at all but the last. -/
structure Problem.LinearQuadratic (p : Problem K) : Prop where
  running : ∀ M ∈ p.running, ∃ (n m k : ℕ) (l : QuadraticCost K n m) (f : AffineDynamics K n m k),
    M.Quadratic l ∧ M.Affine f
  terminal : ∃ (n m : ℕ) (l : QuadraticCost K n m), p.terminal.Quadratic l

/-- Euclidean states at all knots and affine dynamics at all but the last, at any cost. -/
structure Problem.Affine (p : Problem K) : Prop where
  states : ∀ M ∈ p.models, ∃ n, M.state = .euclidean n
  running : ∀ M ∈ p.running, ∃ (n m k : ℕ) (f : AffineDynamics K n m k),
    M.state = .euclidean n ∧ M.nu = m ∧ M.Affine f

theorem Problem.LinearQuadratic.affine {p : Problem K} (hp : p.LinearQuadratic) : p.Affine where
  states M hM := by
    rcases List.mem_append.mp hM with hr | ht
    · obtain ⟨n, m, k, l, f, hq, -⟩ := hp.running M hr
      exact ⟨n, hq.state⟩
    · obtain rfl := List.mem_singleton.mp ht
      obtain ⟨n, m, l, hq⟩ := hp.terminal
      exact ⟨n, hq.state⟩
  running M hM := by
    obtain ⟨n, m, k, l, f, hq, ha⟩ := hp.running M hM
    exact ⟨n, m, k, f, hq.state, hq.nu, ha⟩

def Knots.costAt (ks : Knots K) (t : ℕ) : K := (ks.running ++ [ks.terminal])[t]?.elim 0 (·.cost)

theorem Knots.costAt_running {ks : Knots K} {t : ℕ} {k : Knot K} (h : ks.running[t]? = some k) :
    ks.costAt t = k.cost := by
  have ht : t < ks.running.length := (List.getElem?_eq_some_iff.mp h).1
  rw [costAt, List.getElem?_append_left ht, h]
  rfl

theorem Knots.costAt_terminal (ks : Knots K) : ks.costAt ks.running.length = ks.terminal.cost := by
  rw [costAt, List.getElem?_concat_length]
  rfl

structure Knots.QuadraticAt (ks : Knots K) {n m : ℕ} (t : ℕ) (l : QuadraticCost K n m)
    (x : Fin n → K) (u : Fin m → K) : Prop where
  cost : ks.costAt t = l.value x u
  slopes : ∃ fx fu, System.slopesAt ks t = l.slopes x u fx fu

namespace Knots.QuadraticAt

variable {ks : Knots K} {L : Layout} {t : ℕ} {l : QuadraticCost K (L.ndxAt t) (L.nuAt t)}
  {x : Fin (L.ndxAt t) → K} {u : Fin (L.nuAt t) → K} (h : ks.QuadraticAt t l x u)

include h

theorem lx_eq : ks.lx L t = l.slopeX x u := by
  obtain ⟨-, _, _, hs⟩ := h
  rw [lx, hs]
  exact Vec.toFun_ofFn _

theorem lu_eq : ks.lu L t = l.slopeU x u := by
  obtain ⟨-, _, _, hs⟩ := h
  rw [lu, hs]
  exact Vec.toFun_ofFn _

theorem lxx_eq : ks.lxx L t = l.Q := by
  obtain ⟨-, _, _, hs⟩ := h
  rw [lxx, hs]
  exact Mat.toMatrix_ofMatrix _

theorem lxu_eq : ks.lxu L t = l.S := by
  obtain ⟨-, _, _, hs⟩ := h
  rw [lxu, hs]
  exact Mat.toMatrix_ofMatrix _

theorem luu_eq : ks.luu L t = l.R := by
  obtain ⟨-, _, _, hs⟩ := h
  rw [luu, hs]
  exact Mat.toMatrix_ofMatrix _

end Knots.QuadraticAt

structure Knots.AffineAt (ks : Knots K) {n m k : ℕ} (t : ℕ) (f : AffineDynamics K n m k)
    (x : Fin n → K) (u : Fin m → K) : Prop where
  next : ∃ r, ks.running[t]? = some r ∧ r.xnext = List.ofFn (f.next x u)
  slopes : (System.slopesAt ks t).fx = .ofMatrix f.A ∧ (System.slopesAt ks t).fu = .ofMatrix f.B

namespace Knots.AffineAt

variable {ks : Knots K} {L : Layout} {t : ℕ}
  {f : AffineDynamics K (L.ndxAt t) (L.nuAt t) (L.ndxAt (t + 1))}
  {x : Fin (L.ndxAt t) → K} {u : Fin (L.nuAt t) → K} (h : ks.AffineAt t f x u)

include h

theorem fx_eq : ks.fx L t = f.A := by
  rw [fx, h.slopes.1]
  exact Mat.toMatrix_ofMatrix _

theorem fu_eq : ks.fu L t = f.B := by
  rw [fu, h.slopes.2]
  exact Mat.toMatrix_ofMatrix _

end Knots.AffineAt

namespace Problem

section Records

variable {α : Type} {p : Problem α} {xs us : List (Vec α)} {ks : Knots α} {t : ℕ}

theorem LinearizedAt.get (hl : p.LinearizedAt xs us ks) (hx : xs.length = p.horizon + 1)
    {M : Model α} (hM : p.running[t]? = some M) :
    ∃ k, ks.running[t]? = some k ∧ M.Linearized k (xs.getD t []) (us.getD t []) :=
  hl.running.getD hx hM

theorem ndxAt_running {M : Model α} (hM : p.running[t]? = some M) :
    p.layout.ndxAt t = M.state.ndx := Layout.getD_ndxs (models_running hM)

theorem ndxAt_terminal : p.layout.ndxAt p.horizon = p.terminal.state.ndx :=
  Layout.getD_ndxs p.models_terminal

theorem nuAt_terminal : p.layout.nuAt p.horizon = 0 :=
  List.getD_eq_default _ _ (Layout.length_nus p).le

theorem WellFormed.ndxAt_succ (hw : p.WellFormed) {M : Model α} (hM : p.running[t]? = some M) :
    p.layout.ndxAt (t + 1) = M.next.ndx := by
  have ht : t < p.running.length := (List.getElem?_eq_some_iff.mp hM).1
  have hlt : t + 1 < p.models.length := by simp [models, ht]
  have hM' := List.getElem?_eq_getElem hlt
  rw [Layout.ndxAt, Layout.getD_ndxs hM', (hw.chain t _ _ (models_running hM) hM').1]

end Records

variable {p : Problem K} {xs us : List (Vec K)} {ks : Knots K} {t : ℕ}

namespace Affine

variable {M : Model K}

theorem modelAt (hp : p.Affine) (hw : p.WellFormed) (hM : p.running[t]? = some M) :
    ∃ f : AffineDynamics K (p.layout.ndxAt t) (p.layout.nuAt t) (p.layout.ndxAt (t + 1)),
      M.Affine f := by
  obtain ⟨n, m, k, f, hstate, hnu, ha⟩ := hp.running M (List.mem_of_getElem? hM)
  obtain rfl : n = p.layout.ndxAt t := by rw [ndxAt_running hM, hstate]; rfl
  obtain rfl : m = p.layout.nuAt t := by rw [Layout.nuAt, Layout.getD_nus hM, hnu]
  obtain rfl : k = p.layout.ndxAt (t + 1) := by rw [hw.ndxAt_succ hM, ha.next]; rfl
  exact ⟨f, ha⟩

theorem state_eq (hp : p.Affine) (hM : p.models[t]? = some M) :
    M.state = .euclidean (p.layout.ndxAt t) := by
  have hndx : p.layout.ndxAt t = M.state.ndx := Layout.getD_ndxs hM
  obtain ⟨n, hn⟩ := hp.states M (List.mem_of_getElem? hM)
  rw [hndx, hn]
  rfl

theorem next_eq (hp : p.Affine) (hw : p.WellFormed) (hM : p.running[t]? = some M) :
    M.next = .euclidean (p.layout.ndxAt (t + 1)) := by
  obtain ⟨f, ha⟩ := hp.modelAt hw hM
  exact ha.next

theorem length_state (hp : p.Affine) (hs : p.Shaped xs us) (ht : t < p.horizon + 1) :
    (xs.getD t []).length = p.layout.ndxAt t := by
  have hlt : t < p.models.length := by simpa using ht
  have hM := List.getElem?_eq_getElem hlt
  rw [hs.length_state hM, hp.state_eq hM]
  rfl

theorem affineAt_running (hp : p.Affine) (hM : p.running[t]? = some M)
    {f : AffineDynamics K (p.layout.ndxAt t) (p.layout.nuAt t) (p.layout.ndxAt (t + 1))}
    (hf : M.Affine f) (hs : p.Shaped xs us) (hl : p.LinearizedAt xs us ks) :
    ks.AffineAt t f (p.layout.stateAt xs t) (p.layout.controlAt us t) := by
  have ht : t < p.horizon := (List.getElem?_eq_some_iff.mp hM).1
  obtain ⟨r, hr, he, hd⟩ := hl.get hs.length_states hM
  have hx := hp.length_state hs (Nat.lt_succ_of_lt ht)
  have hu := (hs.length_control hM).trans (Layout.getD_nus hM).symm
  constructor
  · exact ⟨r, hr, hf.eval _ _ _ hx hu he⟩
  · rw [System.slopesAt_running hr]
    exact hf.deriv _ _ _ hx hu hd

/-- Along all trajectories each running knot has one and the same dynamics. -/
theorem affineAt (hp : p.Affine) (hw : p.WellFormed) (ht : t < p.horizon) :
    ∃ f : AffineDynamics K (p.layout.ndxAt t) (p.layout.nuAt t) (p.layout.ndxAt (t + 1)),
      ∀ xs us ks, p.Shaped xs us → p.LinearizedAt xs us ks →
        ks.AffineAt t f (p.layout.stateAt xs t) (p.layout.controlAt us t) := by
  have hM := List.getElem?_eq_getElem (l := p.running) ht
  obtain ⟨f, hf⟩ := hp.modelAt hw hM
  exact ⟨f, fun xs us ks hs hl => hp.affineAt_running hM hf hs hl⟩

theorem diff_initial (hp : p.Affine) (hw : p.WellFormed) (hM : p.running[0]? = some M) (x : Vec K) :
    M.state.diff p.x0 x = Vec.sub x p.x0 ∧ p.x0.length = p.layout.ndxAt 0 := by
  rw [hw.initial _ hM, hp.state_eq (models_running hM)]
  exact ⟨rfl, rfl⟩

theorem diff_next (hp : p.Affine) (hw : p.WellFormed) (hs : p.Shaped xs us)
    (hM : p.running[t]? = some M) {c : K} {y : Vec K}
    (he : M.eval (xs.getD t []) (us.getD t []) = .ok (c, y)) (x : Vec K) :
    M.next.diff y x = Vec.sub x y ∧ y.length = p.layout.ndxAt (t + 1) ∧
      ∀ f : AffineDynamics K (p.layout.ndxAt t) (p.layout.nuAt t) (p.layout.ndxAt (t + 1)),
        M.Affine f → Vec.toFun _ y = f.next (p.layout.stateAt xs t) (p.layout.controlAt us t) := by
  have ht : t < p.horizon := (List.getElem?_eq_some_iff.mp hM).1
  have hx := hp.length_state hs (Nat.lt_succ_of_lt ht)
  have hu := (hs.length_control hM).trans (Layout.getD_nus hM).symm
  have hy {f : AffineDynamics K (p.layout.ndxAt t) (p.layout.nuAt t) (p.layout.ndxAt (t + 1))}
      (hf : M.Affine f) : y = List.ofFn (f.next (p.layout.stateAt xs t) (p.layout.controlAt us t)) :=
    hf.eval _ _ _ hx hu he
  obtain ⟨f, hf⟩ := hp.modelAt hw hM
  refine ⟨?_, ?_, fun f hf => ?_⟩
  · rw [hp.next_eq hw hM]
    rfl
  · rw [hy hf, List.length_ofFn]
  · rw [hy hf, Vec.toFun_ofFn]

theorem gap_zero (hp : p.Affine) (hw : p.WellFormed) (hs : p.Shaped xs us)
    (hl : p.LinearizedAt xs us ks) :
    (p.gaps ks xs).getD 0 [] = Vec.sub (xs.getD 0 []) p.x0 ∧
      p.x0.length = p.layout.ndxAt 0 := by
  have hM := List.getElem?_eq_getElem hw.horizon
  have hfits : p.Fits ks xs us := ⟨hl.running.length_eq, hs.length_states, hs.length_controls⟩
  rw [hfits.gaps_zero hM]
  exact hp.diff_initial hw hM _

theorem gap_succ (hp : p.Affine) (hw : p.WellFormed) (hs : p.Shaped xs us)
    (hl : p.LinearizedAt xs us ks) {k : Knot K} (hk : ks.running[t]? = some k) :
    (p.gaps ks xs).getD (t + 1) [] = Vec.sub (xs.getD (t + 1) []) k.xnext ∧
      k.xnext.length = p.layout.ndxAt (t + 1) := by
  have hlen : ks.running.length = p.horizon := hl.running.length_eq
  have hM := List.getElem?_eq_getElem (hlen ▸ (List.getElem?_eq_some_iff.mp hk).1)
  have hfits : p.Fits ks xs us := ⟨hlen, hs.length_states, hs.length_controls⟩
  obtain ⟨k', hk', he, -⟩ := hl.get hs.length_states hM
  obtain rfl : k' = k := by simpa [hk'] using hk
  rw [hfits.gaps_succ hM hk]
  obtain ⟨hdiff, hlength, -⟩ := hp.diff_next hw hs hM he (xs.getD (t + 1) [])
  exact ⟨hdiff, hlength⟩

theorem stateAt_gaps_zero (hp : p.Affine) (hw : p.WellFormed) (hs : p.Shaped xs us)
    (hl : p.LinearizedAt xs us ks) :
    p.layout.stateAt (p.gaps ks xs) 0 = p.layout.stateAt xs 0 - Vec.toFun _ p.x0 := by
  obtain ⟨hgap, hlen⟩ := hp.gap_zero hw hs hl
  have hx := hp.length_state hs (Nat.succ_pos _)
  rw [Layout.stateAt, hgap, Vec.toFun_sub (hx.trans hlen.symm)]
  rfl

theorem stateAt_gaps_succ (hp : p.Affine) (hw : p.WellFormed) (hs : p.Shaped xs us)
    (hl : p.LinearizedAt xs us ks)
    {f : AffineDynamics K (p.layout.ndxAt t) (p.layout.nuAt t) (p.layout.ndxAt (t + 1))}
    {x : Fin (p.layout.ndxAt t) → K} {u : Fin (p.layout.nuAt t) → K} (hf : ks.AffineAt t f x u) :
    p.layout.stateAt (p.gaps ks xs) (t + 1) = p.layout.stateAt xs (t + 1) - f.next x u := by
  obtain ⟨⟨k, hk, hnext⟩, -⟩ := hf
  obtain ⟨hgap, hlen⟩ := hp.gap_succ hw hs hl hk
  have hrun : ks.running.length = p.horizon := hl.running.length_eq
  have ht : t < ks.running.length := (List.getElem?_eq_some_iff.mp hk).1
  have hx := hp.length_state hs (t := t + 1) (by omega)
  rw [Layout.stateAt, hgap, Vec.toFun_sub (hx.trans hlen.symm), hnext, Vec.toFun_ofFn]
  rfl

end Affine

namespace LinearQuadratic

theorem quadraticAt_running (hp : p.LinearQuadratic) (ht : t < p.horizon) :
    ∃ l : QuadraticCost K (p.layout.ndxAt t) (p.layout.nuAt t), ∀ xs us ks, p.Shaped xs us →
      p.LinearizedAt xs us ks →
      ks.QuadraticAt t l (p.layout.stateAt xs t) (p.layout.controlAt us t) := by
  obtain ⟨M, hM⟩ : ∃ M, p.running[t]? = some M := ⟨_, List.getElem?_eq_getElem ht⟩
  obtain ⟨n, m, k, l, f, hq, -⟩ := hp.running M (List.mem_of_getElem? hM)
  obtain rfl : n = p.layout.ndxAt t := by rw [ndxAt_running hM, hq.state]; rfl
  obtain rfl : m = p.layout.nuAt t := by rw [Layout.nuAt, Layout.getD_nus hM, hq.nu]
  refine ⟨l, ?_⟩
  intro xs us ks hs hl
  obtain ⟨k, hk, he, hd⟩ := hl.get hs.length_states hM
  have hx := (hs.length_state (models_running hM)).trans (congrArg Manifold.nx hq.state)
  have hu := (hs.length_control hM).trans hq.nu
  obtain ⟨y, he'⟩ := hq.eval _ _ hx hu
  obtain ⟨fx, fu, hd'⟩ := hq.deriv _ _ hx hu
  constructor
  · rw [Knots.costAt_running hk]
    exact congrArg Prod.fst (Except.ok.inj (he.symm.trans he'))
  · rw [System.slopesAt_running hk]
    exact ⟨fx, fu, Except.ok.inj (hd.symm.trans hd')⟩

theorem quadraticAt_terminal (hp : p.LinearQuadratic) (hw : p.WellFormed) :
    ∃ l : QuadraticCost K (p.layout.ndxAt p.horizon) (p.layout.nuAt p.horizon), ∀ xs us ks,
      p.Shaped xs us → p.LinearizedAt xs us ks →
      ks.QuadraticAt p.horizon l (p.layout.stateAt xs p.horizon)
        (p.layout.controlAt us p.horizon) := by
  obtain ⟨n, m, l, hq⟩ := hp.terminal
  obtain rfl : n = p.layout.ndxAt p.horizon := by rw [ndxAt_terminal, hq.state]; rfl
  obtain rfl : m = p.layout.nuAt p.horizon := by rw [nuAt_terminal, ← hq.nu, hw.terminal]
  refine ⟨l, ?_⟩
  intro xs us ks hs hl
  have hx := (hs.length_state p.models_terminal).trans (congrArg Manifold.nx hq.state)
  have hu : us.getD p.horizon [] = [] := List.getD_eq_default _ _ hs.length_controls.le
  have hlen : ks.running.length = p.horizon := hl.running.length_eq
  obtain ⟨he, hd⟩ : p.terminal.Linearized ks.terminal (xs.getD p.horizon [])
      (us.getD p.horizon []) := by
    rw [hu, ← hs.getLastD]
    exact hl.terminal
  have hu' : (us.getD p.horizon []).length = p.layout.nuAt p.horizon := by
    rw [hu, nuAt_terminal]
    rfl
  obtain ⟨y, he'⟩ := hq.eval _ _ hx hu'
  obtain ⟨fx, fu, hd'⟩ := hq.deriv _ _ hx hu'
  have hcost := ks.costAt_terminal
  have hslopes := System.slopesAt_terminal ks
  rw [hlen] at hcost hslopes
  constructor
  · rw [hcost]
    exact congrArg Prod.fst (Except.ok.inj (he.symm.trans he'))
  · rw [hslopes]
    exact ⟨fx, fu, Except.ok.inj (hd.symm.trans hd')⟩

/-- Along all trajectories each knot has one and the same cost. -/
theorem quadraticAt (hp : p.LinearQuadratic) (hw : p.WellFormed) (ht : t < p.horizon + 1) :
    ∃ l : QuadraticCost K (p.layout.ndxAt t) (p.layout.nuAt t), ∀ xs us ks, p.Shaped xs us →
      p.LinearizedAt xs us ks →
      ks.QuadraticAt t l (p.layout.stateAt xs t) (p.layout.controlAt us t) := by
  rcases Nat.lt_succ_iff_lt_or_eq.mp ht with ht | rfl
  · exact hp.quadraticAt_running ht
  · exact hp.quadraticAt_terminal hw

theorem symmetric_slopesAt (hp : p.LinearQuadratic) (hw : p.WellFormed) (hs : p.Shaped xs us)
    (hl : p.LinearizedAt xs us ks) (t : ℕ) :
    (System.slopesAt ks t).Symmetric (p.layout.ndxs.getD t 0) (p.layout.nus.getD t 0) := by
  have hentry {n : ℕ} (M : Matrix (Fin n) (Fin n) K) (hM : Mᵀ = M) :
      ∀ i < n, ∀ j < n, (Mat.ofMatrix M).entry i j = (Mat.ofMatrix M).entry j i := by
    intro i hi j hj
    have h := congrFun₂ (Mat.toMatrix_ofMatrix M)
    have hij := congrFun₂ hM ⟨j, hj⟩ ⟨i, hi⟩
    exact ((h ⟨i, hi⟩ ⟨j, hj⟩).trans hij).trans (h ⟨j, hj⟩ ⟨i, hi⟩).symm
  rcases Nat.lt_or_ge p.horizon t with ht | ht
  · obtain ⟨hx, hu⟩ := Layout.getD_past ht
    rw [hx, hu]
    exact Linearization.symmetric_zero _
  · obtain ⟨l, hl'⟩ := hp.quadraticAt hw (Nat.lt_succ_of_le ht)
    obtain ⟨-, fx, fu, hq⟩ := hl' _ _ _ hs hl
    rw [hq]
    exact ⟨hentry l.Q l.transpose_Q, hentry l.R l.transpose_R⟩

theorem linearize_ok (hp : p.LinearQuadratic) (hw : p.WellFormed) (hs : p.Shaped xs us)
    (hf : p.Fits ks xs us) : ∃ ks' c, p.linearize ks xs us = (ks', .ok c) := by
  have hrun {t : ℕ} {M : Model K} {x u : Vec K} (hM : p.running[t]? = some M)
      (hx : xs.dropLast[t]? = some x) (hu : us[t]? = some u) :
      (∃ r, M.eval x u = .ok r) ∧ ∃ s, M.deriv x u = .ok s := by
    obtain ⟨n, m, k, l, f, hq, -⟩ := hp.running M (List.mem_of_getElem? hM)
    obtain ⟨hxlen, hulen⟩ := hs.size hM hx hu
    rw [hq.state] at hxlen
    rw [hq.nu] at hulen
    obtain ⟨y, he⟩ := hq.eval x u hxlen hulen
    obtain ⟨fx, fu, hd⟩ := hq.deriv x u hxlen hulen
    exact ⟨⟨_, he⟩, _, hd⟩
  have hlast : (∃ r, p.terminal.eval (xs.getLastD []) [] = .ok r) ∧
      ∃ s, p.terminal.deriv (xs.getLastD []) [] = .ok s := by
    obtain ⟨n, m, l, hq⟩ := hp.terminal
    have hxlen := hs.length_state p.models_terminal
    rw [← hs.getLastD, hq.state] at hxlen
    have hulen : ([] : Vec K).length = m := hw.terminal.symm.trans hq.nu
    obtain ⟨y, he⟩ := hq.eval _ [] hxlen hulen
    obtain ⟨fx, fu, hd⟩ := hq.deriv _ [] hxlen hulen
    exact ⟨⟨_, he⟩, _, hd⟩
  obtain ⟨⟨r, hr⟩, s, hs'⟩ := hlast
  obtain ⟨total, htotal⟩ := evaluateRunning_total (.of_forall hf.aligned
    fun t m k x u hm _ hx hu => (hrun hm hx hu).1) 0
  have hpass := linearizeRunning_total (.of_forall hf.evaluate.aligned
    fun t m k x u hm _ hx hu => (hrun hm hx hu).2)
  refine ⟨_, total + r.1, Prod.ext rfl ?_⟩
  rw [linearize_snd, hf.evaluate_snd, htotal, hr]
  change (linearizeRunning _ _ _ _).2.bind _ = _
  rw [hpass, hs']
  rfl

end LinearQuadratic
end Problem
end Shooting
