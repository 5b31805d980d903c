import Shooting.Proofs.QuadraticProgram
import Shooting.Proofs.History

/-! # Full steps

A trial keeps the shape of a trajectory, and all derivatives in the records of the knots. A full
step of a linear-quadratic problem moves the point of its trajectory by the increments themselves.
-/

namespace Shooting

/-- Records with the same derivatives at all knots. -/
structure Knots.SameSlopes {α : Type} (ks ks' : Knots α) : Prop where
  running : ks'.running.map (·.slopes) = ks.running.map (·.slopes)
  terminal : ks'.terminal.slopes = ks.terminal.slopes

namespace Knots.SameSlopes

variable {α : Type} {ks ks' ks'' : Knots α}

theorem refl (ks : Knots α) : ks.SameSlopes ks := ⟨rfl, rfl⟩

theorem trans (h : ks.SameSlopes ks') (h' : ks'.SameSlopes ks'') : ks.SameSlopes ks'' :=
  ⟨h'.running.trans h.running, h'.terminal.trans h.terminal⟩

end Knots.SameSlopes

section Trials

variable {α : Type} [Scalar α] {p : Problem α} {xs us dxs dus : List (Vec α)} {t : ℕ}

theorem Problem.getD_moveStates (a : α) (hx : xs.length = p.horizon + 1)
    (hdx : dxs.length = p.horizon + 1) {m : Model α} (hm : p.models[t]? = some m) :
    (p.moveStates a xs dxs).getD t [] =
      m.state.integrate (xs.getD t []) (Vec.scale a (dxs.getD t [])) := by
  obtain ⟨hlt, hmt⟩ := List.getElem?_eq_some_iff.mp hm
  have ht : t < p.horizon + 1 := by simpa using hlt
  simp [moveStates, List.getD_eq_getElem?_getD, hx, hdx, ht, hmt]

theorem getD_moveControls (a : α) (hu : us.length = dus.length) (ht : t < us.length) :
    (moveControls a us dus).getD t [] = Vec.add (us.getD t []) (Vec.scale a (dus.getD t [])) := by
  simp [moveControls, List.getD_eq_getElem?_getD, ht, hu ▸ ht]

theorem Problem.shaped_trial (a : α) (hs : p.Shaped xs us)
    (hx : dxs.map List.length = p.layout.ndxs) (hu : dus.map List.length = p.layout.nus) :
    p.Shaped (p.moveStates a xs dxs) (moveControls a us dus) := by
  have hdx : dxs.length = p.horizon + 1 := by
    simpa [Layout.length_ndxs] using congrArg List.length hx
  have hdu : dus.length = p.horizon := by
    simpa [Layout.length_nus] using congrArg List.length hu
  constructor
  · apply map_length_eq (by simp [moveStates, hs.length_states, hdx])
    intro t m hm
    rw [getD_moveStates a hs.length_states hdx hm]
    refine Manifold.length_integrate (hs.length_state hm) ?_
    rw [Vec.length_scale, length_getD hx, Layout.getD_ndxs hm]
  · apply map_length_eq (by simp [moveControls, hs.length_controls, hdu, horizon])
    intro t m hm
    have ht : t < us.length := by
      rw [hs.length_controls]
      exact (List.getElem?_eq_some_iff.mp hm).1
    rw [getD_moveControls a (hs.length_controls.trans hdu.symm) ht, Vec.length_add,
      Vec.length_scale, hs.length_control hm, length_getD hu, Layout.getD_nus hm, min_self]

theorem Problem.slopes_evaluateRunning (ms : List (Model α)) (ks : List (Knot α))
    (xs us : List (Vec α)) (c : α) :
    (evaluateRunning ms ks xs us c).1.map (·.slopes) = ks.map (·.slopes) := by
  induction ms generalizing ks xs us c with
  | nil => rfl
  | cons m ms ih =>
    rcases ks with _ | ⟨k, ks⟩ <;> rcases xs with _ | ⟨x, xs⟩ <;> rcases us with _ | ⟨u, us⟩ <;>
      try rfl
    rw [evaluateRunning_cons]
    cases m.eval x u with
    | error f => rfl
    | ok r => exact congrArg (k.slopes :: ·) (ih ks xs us _)

theorem Problem.sameSlopes_evaluate (p : Problem α) (ks : Knots α) (xs us : List (Vec α)) :
    ks.SameSlopes (p.evaluate ks xs us).1 := by
  have hrun := slopes_evaluateRunning p.running ks.running xs.dropLast us 0
  unfold evaluate
  split
  · rename_i heq
    rw [heq] at hrun
    exact ⟨hrun, rfl⟩
  · rename_i heq
    rw [heq] at hrun
    split
    · exact ⟨hrun, rfl⟩
    · rename_i x hx
      have hterm : (p.terminal.evaluate ks.terminal x []).1.slopes = ks.terminal.slopes := by
        unfold Model.evaluate
        cases p.terminal.eval x [] <;> rfl
      split <;> rename_i hev <;> rw [hev] at hterm <;> exact ⟨hrun, hterm⟩

theorem System.slopesAt_congr {ks ks' : Knots α} (h : ks.SameSlopes ks') (t : ℕ) :
    slopesAt ks' t = slopesAt ks t := by
  have hmap (ks : Knots α) : slopesAt ks t =
      ((ks.running.map (·.slopes) ++ [ks.terminal.slopes])[t]?).getD (.zero 0 0 0) := by
    have hcat : ks.running.map (·.slopes) ++ [ks.terminal.slopes] =
        (ks.running ++ [ks.terminal]).map (·.slopes) := by simp
    rw [slopesAt, hcat, List.getElem?_map]
    cases (ks.running ++ [ks.terminal])[t]? <;> rfl
  rw [hmap, hmap, h.running, h.terminal]

theorem System.matrixEntry_congr {ks ks' : Knots α} (h : ∀ t, slopesAt ks' t = slopesAt ks t)
    (σ τ : Slot) : matrixEntry ks' σ τ = matrixEntry ks σ τ := by
  cases σ <;> cases τ <;>
    simp only [matrixEntry, matrixEntry.stateCoupling, matrixEntry.controlCoupling, h]

end Trials

section FullStep

variable {K : Type} [ExactScalar K] {p : Problem K} {xs us dxs dus : List (Vec K)}

/-- A full step moves the point of a trajectory by the increments. -/
theorem Problem.LinearQuadratic.point_fullStep (hp : p.LinearQuadratic) (hs : p.Shaped xs us)
    (hx : dxs.map List.length = p.layout.ndxs) (hu : dus.map List.length = p.layout.nus) :
    p.point (p.moveStates 1 xs dxs) (moveControls 1 us dus) - p.point xs us =
      Vec.toFun _ (p.layout.increments.map (Slot.value dxs dus [])) := by
  have hndxs : p.layout.ndxs.length = p.horizon + 1 := Layout.length_ndxs p
  have hnus : p.layout.nus.length = p.horizon := Layout.length_nus p
  have hdx : dxs.length = p.horizon + 1 := by simpa [hndxs] using congrArg List.length hx
  have hdu : dus.length = p.horizon := by simpa [hnus] using congrArg List.length hu
  rw [sub_eq_iff_eq_add', point, point, Vec.toFun_map_add,
    Vec.toFun_map_eq_iff p.layout.length_increments]
  intro σ hσ
  rcases Layout.mem_increments.mp hσ with ⟨t, i, ht, -, rfl⟩ | ⟨t, i, ht, -, rfl⟩
  · have hm := List.getElem?_eq_getElem (l := p.models) (i := t) (by simpa [hndxs] using ht)
    have hlen : (xs.getD t []).length = (Vec.scale 1 (dxs.getD t [])).length := by
      rw [Vec.length_scale, hp.affine.length_state hs (hndxs ▸ ht), length_getD hx]
      rfl
    rw [Slot.value, getD_moveStates 1 hs.length_states hdx hm, hp.affine.state_eq hm,
      Manifold.integrate, Vec.getD_add hlen, Vec.getD_scale, one_mul]
    rfl
  · have htr : t < p.running.length := ht.trans_eq hnus
    have htu : t < us.length := htr.trans_eq hs.length_controls.symm
    have hm := List.getElem?_eq_getElem htr
    have hlen : (us.getD t []).length = (Vec.scale 1 (dus.getD t [])).length := by
      rw [Vec.length_scale, hs.length_control hm, length_getD hu, Layout.getD_nus hm]
    rw [Slot.value, getD_moveControls 1 (hs.length_controls.trans hdu.symm) htu, Vec.getD_add hlen,
      Vec.getD_scale, one_mul]
    rfl

end FullStep
end Shooting
