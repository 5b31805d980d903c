import Shooting.Proofs.Acceptance

/-! # The first acceptable step

A trial function is called on the step lengths of a schedule in order, up to and with the first
whose decrease is acceptable, and no further. What a search holds when it ends can be read off these
calls: of the run before there is nothing left but the step length, and that only if no step was
tried.
-/

namespace Shooting

variable {α σ : Type}

abbrev TrialCall (α : Type) := α × Except Fault (Trial α)

namespace TrialCall

def fault? : TrialCall α → Option Fault
  | (_, .error f) => some f
  | (_, .ok _) => none

def failed : TrialCall α → Bool
  | (_, .ok (.error _)) => true
  | _ => false

def measured? : TrialCall α → Option (α × α)
  | (a, .ok (.ok dV)) => some (a, dV)
  | _ => none

def lastMeasured? (calls : List (TrialCall α)) : Option (α × α) :=
  (calls.filterMap measured?).getLast?

theorem elim_lastMeasured?_cons {β : Type} (b : β) (g : α × α → β) (call : TrialCall α)
    (calls : List (TrialCall α)) :
    (lastMeasured? calls).elim ((lastMeasured? [call]).elim b g) g =
      (lastMeasured? (call :: calls)).elim b g := by
  unfold lastMeasured?
  rw [List.filterMap_cons, List.filterMap_nil, List.filterMap_cons]
  cases call.measured? with
  | none => rfl
  | some m =>
    dsimp only
    rw [List.getLast?_singleton, List.getLast?_cons]
    cases (calls.filterMap measured?).getLast? <;> rfl

end TrialCall

namespace Search

/-- The calls of a trial function one after the other, from one state to another. -/
inductive Calls (trial : σ → α → σ × Except Fault (Trial α)) : σ → List (TrialCall α) → σ → Prop
  | nil (w : σ) : Calls trial w [] w
  | cons {w w' w'' a outcome calls} : trial w a = (w', outcome) → Calls trial w' calls w'' →
      Calls trial w ((a, outcome) :: calls) w''

variable [Scalar α]

/-- The step is to be accepted: its trial has returned a decrease, and the slope is small, or the
search does not start from a feasible trajectory, or the decrease is large enough. -/
def accepts (s : Search α) (d : α × α) (feasible : Bool) (call : TrialCall α) : Bool :=
  call.measured?.any fun (a, dV) =>
    Scalar.lt d.1 s.gradThreshold || !feasible ||
      Scalar.lt (s.acceptRatio * expectedDecrease d a) dV

def reason (s : Search α) (d : α × α) (feasible : Bool) : SearchCode :=
  if Scalar.lt d.1 s.gradThreshold then .gradientTooSmall
  else if !feasible then .infeasibleStart
  else .sufficientDecrease

def stopsAt (s : Search α) (d : α × α) (feasible : Bool) (call : TrialCall α) : Bool :=
  s.accepts d feasible call || call.fault?.isSome

/-- The code that a search ends with. One that a fault has ended keeps the code that it had. -/
def closing (s : Search α) (d : α × α) (feasible : Bool) (calls : List (TrialCall α)) :
    SearchCode :=
  if calls.any (s.accepts d feasible) then s.reason d feasible
  else if calls.any (·.fault?.isSome) then s.code
  else .noStepAccepted

def met (s : Search α) (d : α × α) (calls : List (TrialCall α)) : Search α :=
  { s with
    steplength := (calls.map Prod.fst).getLastD s.steplength
    dV := (TrialCall.lastMeasured? calls).elim s.dV Prod.snd
    dVexp := (TrialCall.lastMeasured? calls).elim s.dVexp fun (a, _) => expectedDecrease d a
    iterations := s.iterations + calls.length
    failures := s.failures + calls.countP (·.failed) }

/-- The calls that a search has made for the steps of a schedule, and what it holds after them. -/
structure Finds (s : Search α) (trial : σ → α → σ × Except Fault (Trial α)) (d : α × α)
    (feasible : Bool) (alphas : List α) (w : σ) (calls : List (TrialCall α))
    (run : SearchRun σ α) : Prop where
  made : Calls trial w calls run.state
  tried : calls.map Prod.fst <+: alphas
  earlier : ∀ call ∈ calls.dropLast, s.stopsAt d feasible call = false
  last : calls.map Prod.fst = alphas ∨ ∃ call ∈ calls.getLast?, s.stopsAt d feasible call = true
  search : run.search = { s.met d calls with code := s.closing d feasible calls }
  result : run.result =
    ((calls.getLast?.bind TrialCall.fault?).elim (.ok run.search.steplength) Except.error)

variable {s : Search α} {trial : σ → α → σ × Except Fault (Trial α)} {d : α × α} {feasible : Bool}
  {alphas : List α} {w w' : σ} {call : TrialCall α} {calls : List (TrialCall α)}
  {run : SearchRun σ α}

theorem met_cons (s : Search α) (d : α × α) (call : TrialCall α) (calls : List (TrialCall α)) :
    (s.met d [call]).met d calls = s.met d (call :: calls) := by
  have hfailures : s.failures + [call].countP (·.failed) + calls.countP (·.failed) =
      s.failures + (call :: calls).countP (·.failed) := by
    rw [List.countP_singleton, List.countP_cons]
    omega
  have hiterations : s.iterations + 1 + calls.length = s.iterations + (calls.length + 1) := by
    omega
  unfold met
  congr 1
  · exact (List.getLastD_cons ..).symm
  · exact TrialCall.elim_lastMeasured?_cons ..
  · exact TrialCall.elim_lastMeasured?_cons ..

theorem verdict_met (s : Search α) (d : α × α) (feasible : Bool) (a dV : α) :
    (s.met d [(a, .ok (.ok dV))]).verdict d feasible =
      if s.accepts d feasible (a, .ok (.ok dV)) then some (s.reason d feasible) else none := by
  change verdict { s with dV, dVexp := expectedDecrease d a } d feasible = _
  unfold verdict accepts reason
  simp only [TrialCall.measured?, Option.any_some]
  cases Scalar.lt d.1 s.gradThreshold <;> cases feasible <;> rfl

section Call

variable {a dV : α} {f : Fault} {e : TrialFailure}

theorem walk_raised (ht : trial w a = (w', .error f)) :
    walk trial d feasible (a :: alphas) w s = ⟨w', s.met d [(a, .error f)], [], .error f⟩ := by
  unfold walk
  rw [ht]
  rfl

theorem walk_failed (d : α × α) (feasible : Bool) (alphas : List α)
    (ht : trial w a = (w', .ok (.error e))) :
    ∃ events, walk trial d feasible (a :: alphas) w s =
      { walk trial d feasible alphas w' (s.met d [(a, .ok (.error e))]) with events } := by
  conv => enter [1, events, 1]; unfold walk
  rw [ht]
  exact ⟨_, rfl⟩

theorem walk_accepts (ht : trial w a = (w', .ok (.ok dV)))
    (h : s.accepts d feasible (a, .ok (.ok dV)) = true) :
    walk trial d feasible (a :: alphas) w s =
      { state := w'
        search := { s.met d [(a, .ok (.ok dV))] with code := s.reason d feasible }
        events := [.measured a dV (expectedDecrease d a)]
        result := .ok a } :=
  walk_first ht ((s.verdict_met d feasible a dV).trans (if_pos h))

theorem walk_rejects (alphas : List α) (ht : trial w a = (w', .ok (.ok dV)))
    (h : s.accepts d feasible (a, .ok (.ok dV)) = false) :
    ∃ events, walk trial d feasible (a :: alphas) w s =
      { walk trial d feasible alphas w' (s.met d [(a, .ok (.ok dV))]) with events } := by
  have hverdict : verdict { s with
      steplength := a, iterations := s.iterations + 1, dV, dVexp := expectedDecrease d a }
      d feasible = none := (verdict_met ..).trans (if_neg (Bool.eq_false_iff.mp h))
  conv => enter [1, events, 1]; unfold walk
  dsimp only
  rw [ht]
  dsimp only
  rw [hverdict]
  exact ⟨_, rfl⟩

end Call

theorem Finds.stop {a : α} {outcome : Except Fault (Trial α)}
    (ht : trial w a = (run.state, outcome))
    (hstop : s.stopsAt d feasible (a, outcome) = true)
    (hsearch : run.search =
      { s.met d [(a, outcome)] with code := s.closing d feasible [(a, outcome)] })
    (hresult : run.result = (TrialCall.fault? (a, outcome)).elim (.ok a) Except.error) :
    Finds s trial d feasible (a :: alphas) w [(a, outcome)] run where
  made := .cons ht (.nil _)
  tried := List.cons_prefix_cons.mpr ⟨rfl, List.nil_prefix⟩
  earlier := by
    rintro call ⟨⟩
  last := .inr ⟨_, rfl, hstop⟩
  search := hsearch
  result := by
    rw [hresult, hsearch]
    rfl

theorem Finds.cons {a : α} {outcome : Except Fault (Trial α)} {events : List (SearchEvent α)}
    (ht : trial w a = (w', outcome)) (hstop : s.stopsAt d feasible (a, outcome) = false)
    (h : Finds (s.met d [(a, outcome)]) trial d feasible alphas w' calls run) :
    Finds s trial d feasible (a :: alphas) w ((a, outcome) :: calls) { run with events } := by
  obtain ⟨haccepts, hfault⟩ := Bool.or_eq_false_iff.mp hstop
  have hnone : TrialCall.fault? (a, outcome) = none :=
    Option.not_isSome_iff_eq_none.mp (Bool.eq_false_iff.mp hfault)
  have hclosing : (s.met d [(a, outcome)]).closing d feasible calls =
      s.closing d feasible ((a, outcome) :: calls) := by
    unfold closing
    rw [List.any_cons, List.any_cons, haccepts, hfault]
    rfl
  constructor
  · exact .cons ht h.made
  · exact List.cons_prefix_cons.mpr ⟨rfl, h.tried⟩
  · intro call hcall
    cases calls with
    | nil => cases hcall
    | cons next calls =>
      rcases List.mem_cons.mp hcall with rfl | hlater
      · exact hstop
      · exact h.earlier call hlater
  · rcases h.last with hall | ⟨call, hlast, hcall⟩
    · exact .inl (congrArg (a :: ·) hall)
    · refine .inr ⟨call, ?_, hcall⟩
      rw [List.getLast?_cons, Option.mem_def.mp hlast]
      rfl
  · change run.search = _
    rw [h.search, met_cons, hclosing]
  · change run.result = _
    rw [h.result, List.getLast?_cons]
    cases calls.getLast? with
    | none =>
      change _ = (TrialCall.fault? (a, outcome)).elim _ _
      rw [hnone]
      rfl
    | some call => rfl

/-- A search makes its calls one after the other, whatever comes of them. -/
theorem walk_finds (trial : σ → α → σ × Except Fault (Trial α)) (d : α × α) (feasible : Bool)
    (alphas : List α) (w : σ) (s : Search α) :
    ∃ calls, Finds s trial d feasible alphas w calls (walk trial d feasible alphas w s) := by
  induction alphas generalizing w s with
  | nil =>
    refine ⟨[], .nil w, List.prefix_rfl, ?_, .inl rfl, rfl, rfl⟩
    rintro call ⟨⟩
  | cons a alphas ih =>
    obtain ⟨w', outcome, ht⟩ : ∃ w' outcome, trial w a = (w', outcome) := ⟨_, _, rfl⟩
    obtain f | e | dV := outcome
    · rw [walk_raised ht]
      exact ⟨_, .stop ht rfl rfl rfl⟩
    · obtain ⟨events, hwalk⟩ := walk_failed d feasible alphas ht
      obtain ⟨calls, h⟩ := ih w' (s.met d [(a, .ok (.error e))])
      rw [hwalk]
      exact ⟨_, .cons ht rfl h⟩
    · cases haccepts : s.accepts d feasible (a, .ok (.ok dV)) with
      | true =>
        have hclosing : s.closing d feasible [(a, .ok (.ok dV))] = s.reason d feasible := by
          unfold closing
          rw [List.any_cons, haccepts]
          rfl
        rw [walk_accepts ht haccepts]
        exact ⟨_, .stop ht (by rw [stopsAt, haccepts]; rfl) (by rw [hclosing]) rfl⟩
      | false =>
        obtain ⟨events, hwalk⟩ := walk_rejects alphas ht haccepts
        obtain ⟨calls, h⟩ := ih w' (s.met d [(a, .ok (.ok dV))])
        rw [hwalk]
        exact ⟨_, .cons ht (by rw [stopsAt, haccepts]; rfl) h⟩

def ended (s : Search α) (d : α × α) (feasible : Bool) (calls : List (TrialCall α)) : Search α :=
  { s with
    steplength := (calls.map Prod.fst).getLastD s.steplength
    dV := (TrialCall.lastMeasured? calls).elim 0 Prod.snd
    dVexp := (TrialCall.lastMeasured? calls).elim 0 fun (a, _) => expectedDecrease d a
    iterations := calls.length
    failures := calls.countP (·.failed)
    code :=
      if calls.any (s.accepts d feasible) then s.reason d feasible
      else if calls.any (·.fault?.isSome) then .noError
      else .noStepAccepted }

/-- A run has made these calls, and it ends with what can be read off them. -/
structure FindsFirst (s : Search α) (trial : σ → α → σ × Except Fault (Trial α)) (d : α × α)
    (feasible : Bool) (w : σ) (calls : List (TrialCall α)) (run : SearchRun σ α) : Prop where
  made : Calls trial w calls run.state
  tried : calls.map Prod.fst <+: s.alphas
  earlier : ∀ call ∈ calls.dropLast, s.stopsAt d feasible call = false
  last : calls.map Prod.fst = s.alphas ∨ ∃ call ∈ calls.getLast?, s.stopsAt d feasible call = true
  search : run.search = s.ended d feasible calls
  result : run.result =
    ((calls.getLast?.bind TrialCall.fault?).elim (.ok run.search.steplength) Except.error)
  accepted : run.search.accepted = calls.any (s.accepts d feasible)
  lenient : Scalar.lt d.1 s.gradThreshold = true ∨ feasible = false → ∀ call ∈ calls,
    call.measured?.isSome = true → calls.getLast? = some call ∧ run.search.accepted = true

theorem accepted_reason (s : Search α) (d : α × α) (feasible : Bool) :
    (s.reason d feasible).accepted = true := by
  unfold reason
  split_ifs <;> rfl

theorem accepts_of_lenient (h : Scalar.lt d.1 s.gradThreshold = true ∨ feasible = false) :
    s.accepts d feasible call = call.measured?.isSome := by
  unfold accepts
  cases call.measured? with
  | none => rfl
  | some m => rcases h with h | h <;> simp [h]

theorem Finds.last_of_stopsAt (h : Finds s trial d feasible alphas w calls run)
    (hmem : call ∈ calls) (hstop : s.stopsAt d feasible call = true) :
    calls.getLast? = some call := by
  have hne := List.ne_nil_of_mem hmem
  rw [← List.dropLast_append_getLast hne, List.mem_append, List.mem_singleton] at hmem
  rcases hmem with hearlier | rfl
  · cases hstop.symm.trans (h.earlier call hearlier)
  · exact List.getLast?_eq_some_getLast hne

/-- A run is the search for the first acceptable step, for any trial function and from whatever the
run before has left. -/
theorem run_findsFirst (s : Search α) (trial : σ → α → σ × Except Fault (Trial α)) (d : α × α)
    (feasible : Bool) (w : σ) :
    ∃ calls, FindsFirst s trial d feasible w calls (s.run trial d feasible w) := by
  obtain ⟨calls, h⟩ := walk_finds trial d feasible s.alphas w
    { s with iterations := 0, failures := 0, dV := 0, dVexp := 0, code := .noError }
  have hsearch : (s.run trial d feasible w).search = s.ended d feasible calls := by
    refine h.search.trans ?_
    unfold met
    dsimp only
    rw [Nat.zero_add, Nat.zero_add]
    rfl
  have haccepted : (s.run trial d feasible w).search.accepted =
      calls.any (s.accepts d feasible) := by
    rw [hsearch]
    unfold Search.accepted ended
    dsimp only
    split_ifs with haccepts hfault
    · rw [haccepts, accepted_reason]
    · exact (Bool.eq_false_iff.mpr haccepts).symm
    · exact (Bool.eq_false_iff.mpr haccepts).symm
  refine ⟨calls, h.made, h.tried, h.earlier, h.last, hsearch, h.result, haccepted, ?_⟩
  intro hlenient call hmem hmeasured
  have haccepts : s.accepts d feasible call = true := (accepts_of_lenient hlenient).trans hmeasured
  have hstop : s.stopsAt d feasible call = true := by
    rw [stopsAt, haccepts]
    rfl
  have hany : calls.any (s.accepts d feasible) = true :=
    List.any_eq_true.mpr ⟨call, hmem, haccepts⟩
  exact ⟨h.last_of_stopsAt hmem hstop, haccepted.trans hany⟩

end Search
end Shooting
