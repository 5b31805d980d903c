import Mathlib.Data.List.Basic
import Shooting.Solver.Candidate

/-! # Accepted trajectories

A trajectory that is accepted has a state for every knot and a control for every running one, each
of the length that its model asks for. Trajectories of that shape are accepted as they stand.
-/

namespace Shooting

variable {α : Type}

namespace Tensor

def Valid (a : Tensor α) : Prop := a.entries.length = a.shape.foldr (· * ·) 1

theorem valid_ofVec (v : Vec α) : (ofVec v).Valid := (Nat.mul_one _).symm

theorem valid_of_mem_map (vs : List (Vec α)) : ∀ a ∈ vs.map ofVec, a.Valid := by
  intro a ha
  obtain ⟨v, -, rfl⟩ := List.mem_map.mp ha
  exact valid_ofVec v

variable {fault : ℕ → Shape → ℕ → Fault} {t : ℕ} {ns : List ℕ} {as : List (Tensor α)}
  {vs : List (Vec α)}

theorem vectors_cons (fault : ℕ → Shape → ℕ → Fault) (t n : ℕ) (ns : List ℕ) (a : Tensor α)
    (as : List (Tensor α)) :
    vectors fault t (n :: ns) (a :: as) =
      if a.shape = [n] then (vectors fault (t + 1) ns as).map (a.entries :: ·)
      else .error (fault t a.shape n) := rfl

theorem map_cons_ok {v : Vec α} {r : Except Fault (List (Vec α))}
    (h : r.map (v :: ·) = .ok vs) : ∃ ws, r = .ok ws ∧ vs = v :: ws := by
  cases r with
  | error f => cases h
  | ok ws =>
    cases h
    exact ⟨ws, rfl, rfl⟩

theorem length_of_vectors (h : vectors fault t ns as = .ok vs) (hlen : as.length = ns.length) :
    vs.length = ns.length := by
  induction ns generalizing as vs t with
  | nil =>
    cases h
    rfl
  | cons n ns ih =>
    obtain ⟨a, as, rfl⟩ := List.exists_cons_of_length_eq_add_one hlen
    rw [vectors_cons] at h
    split at h
    · obtain ⟨ws, hws, rfl⟩ := map_cons_ok h
      simpa using ih hws (by simpa using hlen)
    · cases h

theorem lengths_of_vectors (h : vectors fault t ns as = .ok vs) (hlen : as.length = ns.length)
    (hv : ∀ a ∈ as, a.Valid) : vs.map List.length = ns := by
  induction ns generalizing as vs t with
  | nil =>
    cases h
    rfl
  | cons n ns ih =>
    obtain ⟨a, as, rfl⟩ := List.exists_cons_of_length_eq_add_one hlen
    rw [vectors_cons] at h
    split at h
    · rename_i hs
      obtain ⟨ws, hws, rfl⟩ := map_cons_ok h
      have ha : a.entries.length = n := by simpa [Valid, hs] using hv a (by simp)
      rw [List.map_cons, ha, ih hws (by simpa using hlen) fun b hb => hv b (by simp [hb])]
    · cases h

theorem vectors_ofVec (h : vs.map List.length = ns) :
    vectors fault t ns (vs.map ofVec) = .ok vs := by
  induction vs generalizing ns t with
  | nil =>
    subst h
    rfl
  | cons v vs ih =>
    subst h
    rw [List.map_cons, List.map_cons, vectors_cons, ih rfl]
    exact if_pos rfl

end Tensor

namespace Problem

/-- Every state and control has the length that its model asks for. -/
structure Shaped (p : Problem α) (xs us : List (Vec α)) : Prop where
  states : xs.map List.length = p.models.map (·.state.nx)
  controls : us.map List.length = p.running.map (·.nu)

@[simp] theorem length_models (p : Problem α) : p.models.length = p.horizon + 1 := by
  simp [models, horizon]

theorem models_running {p : Problem α} {t : ℕ} {m : Model α} (hm : p.running[t]? = some m) :
    p.models[t]? = some m := by
  rw [models, List.getElem?_append_left (List.getElem?_eq_some_iff.mp hm).1, hm]

theorem models_terminal (p : Problem α) : p.models[p.horizon]? = some p.terminal :=
  List.getElem?_concat_length

theorem Shaped.length_states {p : Problem α} {xs us : List (Vec α)} (h : p.Shaped xs us) :
    xs.length = p.horizon + 1 := by
  simpa using congrArg List.length h.states

theorem Shaped.length_controls {p : Problem α} {xs us : List (Vec α)} (h : p.Shaped xs us) :
    us.length = p.horizon := by
  simpa [horizon] using congrArg List.length h.controls

theorem Shaped.length_state {p : Problem α} {xs us : List (Vec α)} (h : p.Shaped xs us) {t : ℕ}
    {m : Model α} (hm : p.models[t]? = some m) : (xs.getD t []).length = m.state.nx := by
  have := congrArg (·[t]?) h.states
  simp only [List.getElem?_map, hm, Option.map_some, Option.map_eq_some_iff] at this
  obtain ⟨x, hx, hlen⟩ := this
  rw [List.getD_eq_getElem?_getD, hx, Option.getD_some, hlen]

theorem Shaped.length_control {p : Problem α} {xs us : List (Vec α)} (h : p.Shaped xs us) {t : ℕ}
    {m : Model α} (hm : p.running[t]? = some m) : (us.getD t []).length = m.nu := by
  have := congrArg (·[t]?) h.controls
  simp only [List.getElem?_map, hm, Option.map_some, Option.map_eq_some_iff] at this
  obtain ⟨u, hu, hlen⟩ := this
  rw [List.getD_eq_getElem?_getD, hu, Option.getD_some, hlen]

theorem Shaped.getLastD {p : Problem α} {xs us : List (Vec α)} (h : p.Shaped xs us) :
    xs.getLastD [] = xs.getD p.horizon [] := by
  rw [List.getLastD_eq_getLast?, List.getLast?_eq_getElem?, h.length_states,
    Nat.add_sub_cancel, List.getD_eq_getElem?_getD]

theorem Shaped.size {p : Problem α} {xs us : List (Vec α)} (h : p.Shaped xs us) {t : ℕ}
    {m : Model α} {x u : Vec α} (hm : p.running[t]? = some m) (hx : xs.dropLast[t]? = some x)
    (hu : us[t]? = some u) : x.length = m.state.nx ∧ u.length = m.nu := by
  have ht : t < p.horizon := (List.getElem?_eq_some_iff.mp hm).1
  have hlt : t < xs.length - 1 := by
    rw [h.length_states]
    exact ht
  rw [List.getElem?_dropLast, if_pos hlt] at hx
  have hxlen := h.length_state (models_running hm)
  have hulen := h.length_control hm
  rw [List.getD_eq_getElem?_getD, hx, Option.getD_some] at hxlen
  rw [List.getD_eq_getElem?_getD, hu, Option.getD_some] at hulen
  exact ⟨hxlen, hulen⟩

/-- A trajectory that starts at the fixed initial state and goes where the models lead. -/
structure Follows (p : Problem α) (xs us : List (Vec α)) : Prop where
  initial : xs[0]? = some p.x0
  dynamics : ∀ t m x u, p.running[t]? = some m → xs[t]? = some x → us[t]? = some u →
    ∃ c y, m.eval x u = .ok (c, y) ∧ xs[t + 1]? = some y

structure WellFormed (p : Problem α) : Prop where
  horizon : 0 < p.horizon
  terminal : p.terminal.nu = 0
  chain : ∀ t m m', p.models[t]? = some m → p.models[t + 1]? = some m' →
    m.next.ndx = m'.state.ndx ∧ m.next.nx = m'.state.nx
  initial : ∀ m, p.running[0]? = some m → p.x0.length = m.state.nx

theorem brokenLink_eq_none {ms : List (Model α)} {n t : ℕ} {m m' : Model α}
    (h : brokenLink n ms = none) (hm : ms[t]? = some m) (hm' : ms[t + 1]? = some m') :
    m.next.ndx = m'.state.ndx ∧ m.next.nx = m'.state.nx := by
  fun_induction brokenLink n ms generalizing t with
  | case1 => cases h
  | case2 => cases h
  | case3 n m₁ m₂ ms hndx hnx ih =>
    cases t with
    | zero =>
      obtain rfl : m₁ = m := by simpa using hm
      obtain rfl : m₂ = m' := by simpa using hm'
      exact ⟨not_not.mp hndx, not_not.mp hnx⟩
    | succ t => exact ih h hm hm'
  | case4 ms n hne =>
    rcases ms with _ | ⟨m₁, _ | ⟨m₂, ms⟩⟩
    · simp at hm
    · simp at hm'
    · exact absurd rfl (hne m₁ m₂ ms)

theorem wellFormed_of_build {x0 : Tensor α} (hx : x0.Valid) {running : List (Model α)}
    {terminal : Model α} {p : Problem α} (h : build x0 running terminal = .ok p) :
    p.WellFormed := by
  cases running with
  | nil => cases h
  | cons first rest =>
    simp only [build] at h
    split at h
    · cases h
    · rename_i hnu
      split at h
      · cases h
      · rename_i hlink
        split at h
        · cases h
        · rename_i hshape
          cases h
          refine ⟨Nat.succ_pos _, not_not.mp hnu, fun t m m' => brokenLink_eq_none hlink, ?_⟩
          rintro m hm
          obtain rfl : first = m := by simpa using hm
          simpa [Tensor.Valid, not_not.mp hshape] using hx

variable [Scalar α] {p : Problem α} {xs us : List (Tensor α)} {c : Trajectory α}

@[simp] theorem length_defaultStates (p : Problem α) : p.defaultStates.length = p.horizon + 1 := by
  simp [defaultStates]

@[simp] theorem length_defaultControls (p : Problem α) : p.defaultControls.length = p.horizon := by
  simp [defaultControls, horizon]

/-- The given arrays, or those of the default trajectory in place of none. -/
def chosen (given : List (Tensor α)) (default : List (Vec α)) : List (Tensor α) :=
  if given.isEmpty then default.map .ofVec else given

theorem trajectory_eq (p : Problem α) (xs us : List (Tensor α)) :
    p.trajectory xs us =
      let xs := chosen xs p.defaultStates
      let us := chosen us p.defaultControls
      if xs.length ≠ p.horizon + 1 then .error (.stateCount (p.horizon + 1) xs.length)
      else if us.length ≠ p.horizon then .error (.controlCount p.horizon us.length)
      else
        (Tensor.vectors .stateShape 0 (p.models.map (·.state.nx)) xs).bind fun xs =>
          (Tensor.vectors .controlShape 0 (p.running.map (·.nu)) us).map fun us => { xs, us } := by
  unfold trajectory
  simp only [bind, pure, throw, throwThe, MonadExceptOf.throw]
  change (if (chosen xs p.defaultStates).length ≠ _ then _ else _) = _
  split
  · rfl
  · change (if (chosen us p.defaultControls).length ≠ _ then _ else _) = _
    split <;> rfl

/-- An accepted trajectory consists of the entries of the given arrays or of the default ones. -/
theorem trajectory_eq_ok (h : p.trajectory xs us = .ok c) :
    (chosen xs p.defaultStates).length = p.horizon + 1 ∧
      (chosen us p.defaultControls).length = p.horizon ∧
      Tensor.vectors .stateShape 0 (p.models.map (·.state.nx)) (chosen xs p.defaultStates) =
        .ok c.xs ∧
      Tensor.vectors .controlShape 0 (p.running.map (·.nu)) (chosen us p.defaultControls) =
        .ok c.us := by
  rw [trajectory_eq] at h
  simp only [ne_eq, ite_not] at h
  split at h
  · rename_i hx
    split at h
    · rename_i hu
      cases hvx : Tensor.vectors .stateShape 0 (p.models.map (·.state.nx))
          (chosen xs p.defaultStates) with
      | error f =>
        rw [hvx] at h
        cases h
      | ok vs =>
        cases hvu : Tensor.vectors .controlShape 0 (p.running.map (·.nu))
            (chosen us p.defaultControls) with
        | error f =>
          rw [hvx, hvu] at h
          cases h
        | ok ws =>
          rw [hvx, hvu] at h
          cases h
          exact ⟨hx, hu, rfl, rfl⟩
    · cases h
  · cases h

theorem length_trajectory (h : p.trajectory xs us = .ok c) :
    c.xs.length = p.horizon + 1 ∧ c.us.length = p.horizon := by
  obtain ⟨hx, hu, hcx, hcu⟩ := trajectory_eq_ok h
  constructor
  · simpa using Tensor.length_of_vectors hcx (by simp [hx])
  · simpa [horizon] using Tensor.length_of_vectors hcu (by simp [hu, horizon])

omit [Scalar α] in
theorem valid_chosen {given : List (Tensor α)} (h : ∀ a ∈ given, a.Valid) (default : List (Vec α)) :
    ∀ a ∈ chosen given default, a.Valid := by
  unfold chosen
  split
  · exact Tensor.valid_of_mem_map default
  · exact h

theorem shaped_trajectory (h : p.trajectory xs us = .ok c) (hx : ∀ a ∈ xs, a.Valid)
    (hu : ∀ a ∈ us, a.Valid) : p.Shaped c.xs c.us := by
  obtain ⟨hlx, hlu, hcx, hcu⟩ := trajectory_eq_ok h
  exact ⟨Tensor.lengths_of_vectors hcx (by simp [hlx]) (valid_chosen hx _),
    Tensor.lengths_of_vectors hcu (by simp [hlu, horizon]) (valid_chosen hu _)⟩

theorem trajectory_ofVec {xs us : List (Vec α)} (h : p.Shaped xs us) :
    p.trajectory (xs.map .ofVec) (us.map .ofVec) = .ok { xs, us } := by
  have hx : chosen (xs.map .ofVec) p.defaultStates = xs.map .ofVec := by
    have hne : xs ≠ [] := List.ne_nil_of_length_eq_add_one h.length_states
    simp [chosen, hne]
  have hu : chosen (us.map .ofVec) p.defaultControls = us.map .ofVec := by
    cases us with
    | nil =>
      have hnil : p.running = [] := List.eq_nil_of_length_eq_zero h.length_controls.symm
      simp [chosen, defaultControls, hnil]
    | cons u us => rfl
  rw [trajectory_eq]
  simp only [hx, hu, List.length_map, h.length_states, h.length_controls, ne_eq, not_true_eq_false,
    if_false, Tensor.vectors_ofVec h.states, Tensor.vectors_ofVec h.controls]
  rfl

end Problem
end Shooting
