import Shooting.Proofs.Evaluation
import Shooting.Proofs.FullStep

/-! # Chained models

A problem is built from a fixed state and models that fit together: each leads to the manifold on
which the next one lives. Dimensions are all that is compared, but between the two kinds of
manifolds these tell everything. So the gap of a state and its increment in a trial are taken on the
same manifold, although one is taken by the model before it and the other by its own.
-/

namespace Shooting

variable {α : Type}

theorem Manifold.eq_iff {M M' : Manifold} : M = M' ↔ M.ndx = M'.ndx ∧ M.nx = M'.nx := by
  constructor
  · rintro rfl
    exact ⟨rfl, rfl⟩
  · rintro ⟨hndx, hnx⟩
    cases M <;> cases M' <;> simp only [ndx, nx] at hndx hnx
    · rw [hnx]
    · omega
    · omega
    · rw [Nat.add_left_cancel hndx]

/-- Neither of them would be enough. -/
example : (Manifold.rotation 0).ndx = (Manifold.euclidean 1).ndx ∧
    (Manifold.rotation 0).nx = (Manifold.euclidean 2).nx := by decide

namespace Problem

def LinkedAt (ms : List (Model α)) (t : ℕ) : Prop :=
  ∀ m m', ms[t]? = some m → ms[t + 1]? = some m' → m.next = m'.state

/-- The first two models in a row that are not linked. -/
structure BreaksAt (ms : List (Model α)) (t : ℕ) (m m' : Model α) : Prop where
  model : ms[t]? = some m
  following : ms[t + 1]? = some m'
  differs : m.next ≠ m'.state
  earlier : ∀ i < t, LinkedAt ms i

def linkFault (t : ℕ) (next state : Manifold) : Fault :=
  if next.ndx ≠ state.ndx then .tangentChain t next.ndx state.ndx
  else .embeddingChain t next.nx state.nx

variable {m m' m₁ m₂ : Model α} {ms : List (Model α)} {n t : ℕ} {f : Fault}

theorem brokenLink_cons_cons (n : ℕ) (m m' : Model α) (ms : List (Model α)) :
    brokenLink n (m :: m' :: ms) =
      if m.next = m'.state then brokenLink (n + 1) (m' :: ms)
      else some (linkFault n m.next m'.state) := by
  rw [brokenLink, linkFault]
  by_cases hndx : m.next.ndx = m'.state.ndx
  · by_cases hnx : m.next.nx = m'.state.nx <;> simp [Manifold.eq_iff, hndx, hnx]
  · simp [Manifold.eq_iff, hndx]

theorem linkedAt_zero_iff : LinkedAt (m :: m' :: ms) 0 ↔ m.next = m'.state := by
  constructor
  · intro h
    exact h m m' rfl rfl
  · rintro h _ _ ⟨⟩ ⟨⟩
    exact h

theorem breaksAt_zero_iff :
    BreaksAt (m :: m' :: ms) 0 m₁ m₂ ↔ m₁ = m ∧ m₂ = m' ∧ m.next ≠ m'.state := by
  constructor
  · rintro ⟨⟨⟩, ⟨⟩, hne, -⟩
    exact ⟨rfl, rfl, hne⟩
  · rintro ⟨rfl, rfl, hne⟩
    exact ⟨rfl, rfl, hne, nofun⟩

theorem breaksAt_succ_iff (h : m.next = m'.state) :
    BreaksAt (m :: m' :: ms) (t + 1) m₁ m₂ ↔ BreaksAt (m' :: ms) t m₁ m₂ := by
  constructor
  · rintro ⟨hm, hm', hne, hearlier⟩
    exact ⟨hm, hm', hne, fun i hi => hearlier (i + 1) (Nat.succ_lt_succ hi)⟩
  · rintro ⟨hm, hm', hne, hearlier⟩
    refine ⟨hm, hm', hne, fun i hi => ?_⟩
    cases i with
    | zero => exact linkedAt_zero_iff.mpr h
    | succ i => exact hearlier i (Nat.lt_of_succ_lt_succ hi)

theorem brokenLink_eq_some_iff : brokenLink n ms = some f ↔
    ∃ t m m', BreaksAt ms t m m' ∧ f = linkFault (n + t) m.next m'.state := by
  induction ms generalizing n with
  | nil =>
    constructor
    · rintro ⟨⟩
    · rintro ⟨t, m, m', ⟨⟨⟩, -⟩, -⟩
  | cons m ms ih =>
    rcases ms with _ | ⟨m', ms⟩
    · constructor
      · rintro ⟨⟩
      · rintro ⟨t, m, m', ⟨-, ⟨⟩, -⟩, -⟩
    rw [brokenLink_cons_cons]
    by_cases hlink : m.next = m'.state
    · rw [if_pos hlink, ih]
      constructor
      · rintro ⟨t, m₁, m₂, h, rfl⟩
        exact ⟨t + 1, m₁, m₂, (breaksAt_succ_iff hlink).mpr h, by rw [Nat.add_right_comm]; rfl⟩
      · rintro ⟨_ | t, m₁, m₂, h, rfl⟩
        · exact absurd hlink (breaksAt_zero_iff.mp h).2.2
        · exact ⟨t, m₁, m₂, (breaksAt_succ_iff hlink).mp h, by rw [Nat.add_right_comm]; rfl⟩
    · rw [if_neg hlink]
      constructor
      · rintro ⟨⟩
        exact ⟨0, m, m', breaksAt_zero_iff.mpr ⟨rfl, rfl, hlink⟩, rfl⟩
      · rintro ⟨_ | t, m₁, m₂, h, rfl⟩
        · obtain ⟨rfl, rfl, -⟩ := breaksAt_zero_iff.mp h
          rfl
        · exact absurd (linkedAt_zero_iff.mp (h.earlier 0 t.succ_pos)) hlink

theorem brokenLink_eq_none_iff : brokenLink n ms = none ↔ ∀ t, LinkedAt ms t := by
  constructor
  · intro h t m m' hm hm'
    exact Manifold.eq_iff.mpr (brokenLink_eq_none h hm hm')
  · intro h
    cases hb : brokenLink n ms with
    | none => rfl
    | some f =>
      obtain ⟨t, m, m', hbreaks, -⟩ := brokenLink_eq_some_iff.mp hb
      exact absurd (h t m m' hbreaks.model hbreaks.following) hbreaks.differs

structure Compatible (x0 : Tensor α) (running : List (Model α)) (terminal : Model α) : Prop where
  horizon : running ≠ []
  controls : terminal.nu = 0
  links : ∀ t, LinkedAt (running ++ [terminal]) t
  initial : ∀ m, running.head? = some m → x0.shape = [m.state.nx]

/-- The first check that the parts of a problem do not pass, with the family, the code and the text
of the fault that reports it. -/
inductive Misfit (x0 : Tensor α) (running : List (Model α)) (terminal : Model α) :
    Fault.Family → ErrorCode → String → Prop
  | horizon (h : running = []) :
    Misfit x0 running terminal .initialization .badIndex
      "A shooting problem needs at least one running model"
  | controls (hr : running ≠ []) (h : terminal.nu ≠ 0) :
    Misfit x0 running terminal .dimension .invalidAtTerminalKnot
      s!"Terminal model must not have controls, got nu={terminal.nu}"
  | tangent {t : ℕ} {m n : Model α} (hr : running ≠ []) (hnu : terminal.nu = 0)
    (h : BreaksAt (running ++ [terminal]) t m n) (hndx : m.next.ndx ≠ n.state.ndx) :
    Misfit x0 running terminal .dimension .dimensionMismatch
      s!"Knot {t} maps into a state with ndx={m.next.ndx} but knot {t + 1} has ndx={n.state.ndx}"
  | embedding {t : ℕ} {m n : Model α} (hr : running ≠ []) (hnu : terminal.nu = 0)
    (h : BreaksAt (running ++ [terminal]) t m n) (hndx : m.next.ndx = n.state.ndx) :
    Misfit x0 running terminal .dimension .dimensionMismatch
      s!"Knot {t} maps into a state with nx={m.next.nx} but knot {t + 1} has nx={n.state.nx}"
  | initial {m : Model α} (hm : running.head? = some m) (hnu : terminal.nu = 0)
    (hlinks : ∀ t, LinkedAt (running ++ [terminal]) t) (h : x0.shape ≠ [m.state.nx]) :
    Misfit x0 running terminal .dimension .dimensionMismatch
      s!"Initial state has shape {x0.shape.text}, expected ({m.state.nx},)"

variable {x0 : Tensor α} {running : List (Model α)} {terminal : Model α} {p : Problem α}
  {family : Fault.Family} {code : ErrorCode} {text : String}

theorem build_of_head? (hm : running.head? = some m) :
    build x0 running terminal =
      if terminal.nu ≠ 0 then .error (.terminalControls terminal.nu)
      else match brokenLink 0 (running ++ [terminal]) with
        | some f => .error f
        | none =>
          if x0.shape ≠ [m.state.nx] then .error (.initialShape x0.shape m.state.nx)
          else .ok { x0 := x0.entries, running, terminal } := by
  obtain ⟨rest, rfl⟩ : ∃ rest, running = m :: rest := ⟨_, List.eq_cons_of_mem_head? hm⟩
  rfl

theorem Compatible.build (h : Compatible x0 running terminal) :
    build x0 running terminal = .ok { x0 := x0.entries, running, terminal } := by
  obtain ⟨m, hm⟩ := Option.isSome_iff_exists.mp (List.isSome_head?.mpr h.horizon)
  rw [build_of_head? hm, if_neg (not_not.mpr h.controls), brokenLink_eq_none_iff.mpr h.links]
  exact if_neg (not_not.mpr (h.initial m hm))

theorem BreaksAt.misfit (hr : running ≠ []) (hnu : terminal.nu = 0)
    (h : BreaksAt (running ++ [terminal]) t m m') :
    ∃ code, (linkFault t m.next m'.state).code = some code ∧
      Misfit x0 running terminal (linkFault t m.next m'.state).family code
        (linkFault t m.next m'.state).text := by
  unfold linkFault
  split_ifs with hndx
  · exact ⟨_, rfl, .tangent hr hnu h hndx⟩
  · exact ⟨_, rfl, .embedding hr hnu h (not_not.mp hndx)⟩

/-- Parts either fit together, or are refused for the first check that they do not pass. -/
theorem build_cases (x0 : Tensor α) (running : List (Model α)) (terminal : Model α) :
    Compatible x0 running terminal ∨ ∃ f code, Problem.build x0 running terminal = .error f ∧
      f.code = some code ∧ Misfit x0 running terminal f.family code f.text := by
  rcases hr : running.head? with _ | m
  · obtain rfl := List.head?_eq_none_iff.mp hr
    exact .inr ⟨_, _, rfl, rfl, .horizon rfl⟩
  have hne : running ≠ [] := by
    rintro rfl
    cases hr
  rw [build_of_head? hr]
  by_cases hnu : terminal.nu = 0
  case neg => exact .inr ⟨_, _, if_pos hnu, rfl, .controls hne hnu⟩
  rw [if_neg (not_not.mpr hnu)]
  cases hlink : brokenLink 0 (running ++ [terminal]) with
  | some f =>
    obtain ⟨t, m₁, m₂, hbreaks, rfl⟩ := brokenLink_eq_some_iff.mp hlink
    rw [Nat.zero_add]
    obtain ⟨code, hcode, hmisfit⟩ := hbreaks.misfit hne hnu
    exact .inr ⟨_, code, rfl, hcode, hmisfit⟩
  | none =>
    have hlinks := brokenLink_eq_none_iff.mp hlink
    by_cases hshape : x0.shape = [m.state.nx]
    · refine .inl ⟨hne, hnu, hlinks, fun m' hm' => ?_⟩
      obtain rfl := Option.some.inj (hr.symm.trans hm')
      exact hshape
    · exact .inr ⟨_, _, if_pos hshape, rfl, .initial hr hnu hlinks hshape⟩

theorem BreaksAt.build (hr : running ≠ []) (hnu : terminal.nu = 0)
    (h : BreaksAt (running ++ [terminal]) t m m') :
    build x0 running terminal = .error (linkFault t m.next m'.state) := by
  obtain ⟨first, hfirst⟩ := Option.isSome_iff_exists.mp (List.isSome_head?.mpr hr)
  rw [build_of_head? hfirst, if_neg (not_not.mpr hnu),
    brokenLink_eq_some_iff.mpr ⟨t, m, m', h, rfl⟩, Nat.zero_add]

theorem Misfit.build (h : Misfit x0 running terminal family code text) :
    ∃ f, build x0 running terminal = .error f ∧ f.family = family ∧ f.code = some code ∧
      f.text = text := by
  cases h with
  | horizon h =>
    subst h
    exact ⟨_, rfl, rfl, rfl, rfl⟩
  | controls hr hnu =>
    obtain ⟨m, hm⟩ := Option.isSome_iff_exists.mp (List.isSome_head?.mpr hr)
    exact ⟨_, by rw [build_of_head? hm, if_pos hnu], rfl, rfl, rfl⟩
  | tangent hr hnu h hndx =>
    refine ⟨_, h.build hr hnu, ?_⟩
    rw [linkFault, if_pos hndx]
    exact ⟨rfl, rfl, rfl⟩
  | embedding hr hnu h hndx =>
    refine ⟨_, h.build hr hnu, ?_⟩
    rw [linkFault, if_neg (not_not.mpr hndx)]
    exact ⟨rfl, rfl, rfl⟩
  | initial hm hnu hlinks h =>
    refine ⟨.initialShape _ _, ?_, rfl, rfl, rfl⟩
    rw [build_of_head? hm, if_neg (not_not.mpr hnu), brokenLink_eq_none_iff.mpr hlinks]
    exact if_pos h

theorem build_eq_ok_iff : Problem.build x0 running terminal = .ok p ↔
    Compatible x0 running terminal ∧ p = { x0 := x0.entries, running, terminal } := by
  constructor
  · intro h
    rcases build_cases x0 running terminal with hcompatible | ⟨f, code, herror, -⟩
    · exact ⟨hcompatible, Except.ok.inj (h.symm.trans hcompatible.build)⟩
    · cases h.symm.trans herror
  · rintro ⟨h, rfl⟩
    exact h.build

theorem build_error_iff : (∃ f, Problem.build x0 running terminal = .error f ∧
    f.family = family ∧ f.code = some code ∧ f.text = text) ↔
      Misfit x0 running terminal family code text := by
  constructor
  · rintro ⟨f, h, rfl, hcode, rfl⟩
    rcases build_cases x0 running terminal with hcompatible | ⟨f', code', h', hcode', hmisfit⟩
    · cases h.symm.trans hcompatible.build
    · obtain rfl := Except.error.inj (h.symm.trans h')
      obtain rfl := Option.some.inj (hcode.symm.trans hcode')
      exact hmisfit
  · exact Misfit.build

variable [Scalar α]

/-- The gap of a state, and its increment in a trial, are taken on the same manifold. -/
structure Coherent (p : Problem α) : Prop where
  initial : ∀ (ks : Knots α) (xs us dxs : List (Vec α)) (a : α) (m : Model α), p.Fits ks xs us →
    dxs.length = p.horizon + 1 → p.running[0]? = some m →
      (p.gaps ks xs).getD 0 [] = m.state.diff p.x0 (xs.getD 0 []) ∧
      (p.moveStates a xs dxs).getD 0 [] =
        m.state.integrate (xs.getD 0 []) (Vec.scale a (dxs.getD 0 []))
  following : ∀ (ks : Knots α) (xs us dxs : List (Vec α)) (a : α) (t : ℕ) (m m' : Model α)
    (k : Knot α), p.Fits ks xs us → dxs.length = p.horizon + 1 → p.running[t]? = some m →
    p.models[t + 1]? = some m' → ks.running[t]? = some k →
      ∃ M, m.next = M ∧ m'.state = M ∧
        (p.gaps ks xs).getD (t + 1) [] = M.diff k.xnext (xs.getD (t + 1) []) ∧
        (p.moveStates a xs dxs).getD (t + 1) [] =
          M.integrate (xs.getD (t + 1) []) (Vec.scale a (dxs.getD (t + 1) []))

theorem coherent_of_linked (h : ∀ t, LinkedAt p.models t) : p.Coherent where
  initial ks xs us dxs a m hf hdxs hm :=
    ⟨hf.gaps_zero hm, getD_moveStates a hf.states hdxs (models_running hm)⟩
  following ks xs us dxs a t m m' k hf hdxs hm hm' hk := by
    refine ⟨m.next, rfl, (h t m m' (models_running hm) hm').symm, hf.gaps_succ hm hk, ?_⟩
    rw [h t m m' (models_running hm) hm']
    exact getD_moveStates a hf.states hdxs hm'

structure BuildsExactly (x0 : Tensor α) (running : List (Model α)) (terminal : Model α) : Prop where
  accepts : ∀ p, build x0 running terminal = .ok p ↔
    Compatible x0 running terminal ∧ p = { x0 := x0.entries, running, terminal }
  refuses : ∀ family code text, (∃ f, build x0 running terminal = .error f ∧
    f.family = family ∧ f.code = some code ∧ f.text = text) ↔
      Misfit x0 running terminal family code text
  worded : ∀ f, build x0 running terminal = .error f →
    ∃ code, f.code = some code ∧ f.message = "KKT Error " ++ code.value ++ ": " ++ f.text
  coherent : ∀ p, build x0 running terminal = .ok p → p.Coherent

/-- Parts make up a problem exactly if they fit together, and are refused for the first check that
they do not pass otherwise. -/
theorem build_exact (x0 : Tensor α) (running : List (Model α)) (terminal : Model α) :
    BuildsExactly x0 running terminal where
  accepts _ := build_eq_ok_iff
  refuses _ _ _ := build_error_iff
  worded f h := by
    rcases build_cases x0 running terminal with hcompatible | ⟨f', code, h', hcode, -⟩
    · cases h.symm.trans hcompatible.build
    · obtain rfl := Except.error.inj (h.symm.trans h')
      refine ⟨code, hcode, ?_⟩
      rw [Fault.message, hcode]
  coherent p h := by
    obtain ⟨hcompatible, rfl⟩ := build_eq_ok_iff.mp h
    exact coherent_of_linked hcompatible.links

end Problem
end Shooting
