import SerialisationSolver.Correctness.ModelSearch

/-! `enumerate_initial` refines the machine of `ModelSearch`. Against every
correct solver its record is a run of the machine, and with enough fuel it ends
with the initial sets, each of them once. -/
namespace SerialisationSolver

open Interaction Interaction.Program Satisfiability Argumentation

/-- The state of the solver between two calls of `solve`, as the machine sees it:
its clauses and assumptions are the next question, and its cached model is the set
that is being lowered. -/
structure Tracks (af : AF) (active : IterableBitSet) (s : CadicalSatSolver) (st : ModelSearch) :
    Prop where
  ready : s.Ready
  vars : s.decisionVars = af.args
  clauses : s.clauses = (st.query af active).clauses
  pending : s.pending = if st.stuck then [] else (st.query af active).assumptions
  model : ∀ set, st.current = some set → active.array.filter s.accepts = set

section Loops

variable {af : AF} {active : IterableBitSet} (hActive : active.Valid af)
  (hValid : LiteralsValid af active)
include hActive hValid

omit hActive hValid in
/-- The loop that separates what the model accepts, for the clause, from what it
does not accept, for the assumptions. -/
private theorem excludeLoop_foldl (accepts : Nat → Bool) (args : List Nat) (s : CadicalSatSolver)
    (clause : Clause) :
    args.foldl (fun (acc : CadicalSatSolver × Clause) arg =>
        if accepts arg then (acc.1, acc.2 ++ [-af.acceptedVar arg])
        else (acc.1.withAssumption (-af.acceptedVar arg), acc.2)) (s, clause) =
      (s.withAssumptions ((args.filter fun a => !accepts a).map fun a => -af.acceptedVar a),
        clause ++ minimizationClause af (args.filter accepts)) := by
  induction args generalizing s clause with
  | nil => simp [minimizationClause, CadicalSatSolver.withAssumptions]
  | cons arg args ih =>
      rw [List.foldl_cons]
      cases hAccepts : accepts arg
      · rw [if_neg (by decide), ih]
        simp [hAccepts, CadicalSatSolver.withAssumptions]
      · rw [if_pos rfl, ih]
        simp [hAccepts, minimizationClause]

theorem minimizationClause_valid {set : List Nat} (hSet : ∀ a ∈ set, a ∈ active.array) :
    ∀ lit ∈ minimizationClause af set, Cadical.Solver.ValidLit lit := by
  intro lit hLit
  obtain ⟨a, ha, rfl⟩ := List.mem_map.mp hLit
  exact (hValid.all (hActive.covers a (hSet a ha))).2.1

/-- As long as the literals are valid, the body of the inner loop assumes the
rejected arguments and adds the clause of the accepted ones. -/
theorem excludeModel_eq {s : CadicalSatSolver} (hReady : s.Ready) :
    excludeModel af active s =
      pure ((s.withAssumptions
          ((active.array.filter fun a => !s.accepts a).map fun a => -af.acceptedVar a)).withClause
        (minimizationClause af (active.array.filter s.accepts))) := by
  unfold excludeModel
  dsimp only
  rw [forIn_eq_foldl _ (fun _ => True) trivial, excludeLoop_foldl s.accepts]
  · rw [pure_bind, List.nil_append, CadicalSatSolver.addClause_eq (hReady.withAssumptions _)]
    exact minimizationClause_valid hActive hValid fun a ha => List.mem_of_mem_filter ha
  · intro arg hArg acc _
    refine ⟨?_, trivial⟩
    split_ifs
    · rfl
    · rw [CadicalSatSolver.assume_eq _ (hValid.all (hActive.covers arg hArg)).2.1]
      rfl

omit hActive hValid in
/-- The next call of `solve` asks the question of the machine. With the largest
number of variables the counter of the loop that reads the model runs over. -/
theorem Tracks.solve_eq {s : CadicalSatSolver} {st : ModelSearch} (hTracks : Tracks af active s st)
    (hStuck : st.stuck = false) :
    s.solve = .ask (st.query af active) fun answer =>
      if answer.res = 10 then
        if af.args + 1 = 2 ^ 31 then .fail .overflow else .done (satV, s.withModel answer.vals)
      else if answer.res = 20 then .done (unsatV, s.withoutModel answer.vals)
      else .fail .exit := by
  have hQuery : (⟨s.clauses, s.pending⟩ : Query) = st.query af active := by
    rw [hTracks.clauses, hTracks.pending, hStuck]
    rfl
  have hLast : s.decisionVars = 2 ^ 31 - 1 ↔ af.args + 1 = 2 ^ 31 := by
    rw [hTracks.vars]
    omega
  simp only [CadicalSatSolver.solve_eq hTracks.ready, hQuery, hLast]

omit hValid in
/-- A model was found: solver and machine both have the accepted set as their
current one, with its clause added. -/
theorem Tracks.found {s : CadicalSatSolver} {st : ModelSearch} (hTracks : Tracks af active s st)
    (hStuck : st.stuck = false) (vals : Valuation) :
    Tracks af active
      (((s.withModel vals).withAssumptions ((active.array.filter fun a =>
        !(s.withModel vals).accepts a).map fun a => -af.acceptedVar a)).withClause
          (minimizationClause af (active.array.filter (s.withModel vals).accepts)))
      (st.found (acceptedBy active vals)) := by
  have hAccepts : ∀ a ∈ active.array, (s.withModel vals).accepts a = vals (a + 1) := by
    intro a ha
    have hLess := hActive.lt_args a ha
    exact CadicalSatSolver.accepts_withModel (by rw [hTracks.vars]; omega) vals
  have hSet : active.array.filter (s.withModel vals).accepts = acceptedBy active vals :=
    List.filter_congr hAccepts
  have hRest : (active.array.filter fun a => !(s.withModel vals).accepts a) =
      active.array.filter (· ∉ acceptedBy active vals) := by
    apply List.filter_congr
    intro a ha
    rw [hAccepts a ha]
    cases hVal : vals (a + 1) <;> simp [ha, hVal]
  refine ⟨((hTracks.ready.withModel vals).withAssumptions _).withClause _, ?_, ?_, ?_, ?_⟩
  · simpa using hTracks.vars
  · simp [hTracks.clauses, hSet, ModelSearch.query, ModelSearch.found]
  · simp [hRest, hStuck, ModelSearch.query, ModelSearch.found, ModelSearch.assumptions]
  · rintro set ⟨⟩
    rw [← hSet]
    apply List.filter_congr
    intro a _
    simp [CadicalSatSolver.accepts]

omit hActive hValid in
/-- No model was found: the assumptions are gone, and the machine cannot lower its
set any more. -/
theorem Tracks.stuck {s : CadicalSatSolver} {st : ModelSearch} (hTracks : Tracks af active s st)
    (vals : Valuation) : Tracks af active (s.withoutModel vals) { st with stuck := true } where
  ready := hTracks.ready.withoutModel vals
  vars := hTracks.vars
  clauses := hTracks.clauses
  pending := by simp
  model := hTracks.model

omit hActive hValid in
/-- A set is reported by the machine while the solver stays as it is. -/
theorem Tracks.report {s : CadicalSatSolver} {st : ModelSearch} (hTracks : Tracks af active s st)
    (hStuck : st.stuck = true) (set : List Nat) : Tracks af active s (st.report set) where
  ready := hTracks.ready
  vars := hTracks.vars
  clauses := hTracks.clauses
  pending := by simp [hTracks.pending, hStuck, ModelSearch.query, ModelSearch.report,
    ModelSearch.assumptions]
  model := by rintro set ⟨⟩

/-- Why a loop stops without a result: its fuel is spent on models, or a model
cannot be read because the counter of that loop runs over. -/
def Stops (af : AF) (fuel : Nat) (fault : Fault) (trace : Trace) : Prop :=
  (fault = .outOfFuel ∧ fuel ≤ (trace.map ModelSearch.cost).sum) ∨
    (fault = .overflow ∧ af.args + 1 = 2 ^ 31 ∧ 0 < (trace.map ModelSearch.cost).sum)

/-- The inner loop runs until the machine is stuck. Its record is a run of the
machine, and no set is reported on the way. -/
theorem minimizeModel_ensures (fuel : Nat) {s : CadicalSatSolver}
    {st : ModelSearch} {foundExtension : Bool} (hTracks : Tracks af active s st)
    (hStuck : st.stuck = false) (hFlag : foundExtension = st.current.isSome) :
    Ensures Correct (minimizeModel af active fuel s foundExtension) (fun out trace =>
      ∃ st', Runs (ModelSearch.Step af active) st trace st' ∧
        match out with
        | .ok (s', flag) => Tracks af active s' st' ∧ st'.stuck = true ∧ flag = st'.current.isSome ∧
            st'.reported = st.reported ∧
            (st.current = none → flag = true → 0 < (trace.map ModelSearch.cost).sum) ∧
            (af.args + 1 = 2 ^ 31 → (trace.map ModelSearch.cost).sum = 0)
        | .error fault => Stops af fuel fault trace) := by
  induction fuel generalizing s st foundExtension with
  | zero => exact ⟨st, .nil st, Or.inl ⟨rfl, Nat.zero_le _⟩⟩
  | succ fuel ih =>
      rw [minimizeModel, hTracks.solve_eq hStuck, ask_bind]
      rintro answer (⟨hRes, hModel⟩ | ⟨hRes, hNone⟩)
      · have hFound : ModelSearch.Step af active st (.asked (st.query af active) answer)
            (st.found (acceptedBy active answer.vals)) := .found hStuck hRes hModel
        by_cases hLast : af.args + 1 = 2 ^ 31
        · simp only [hRes, if_true, hLast, fail_bind]
          exact ⟨_, .single hFound, Or.inr ⟨rfl, hLast, by simp [ModelSearch.cost, hRes]⟩⟩
        · simp only [hRes, if_true, hLast, if_false, done_bind]
          rw [if_neg (by decide), excludeModel_eq hActive hValid
            (hTracks.ready.withModel answer.vals), pure_bind]
          apply (ih (hTracks.found hActive hStuck answer.vals) hStuck rfl).mono
          intro out trace hRun
          obtain ⟨st', hRuns, hOut⟩ := hRun
          refine ⟨st', .cons hFound hRuns, ?_⟩
          rcases out with fault | ⟨s', flag⟩
          · refine hOut.imp (fun hFuel => ⟨hFuel.1, ?_⟩) (fun hOver => ⟨hOver.1, hOver.2.1, ?_⟩)
            · have hSpent := hFuel.2
              simp only [List.map_cons, List.sum_cons, ModelSearch.cost, hRes, if_true]
              omega
            · simp [ModelSearch.cost, hRes]
          · obtain ⟨hTracks', hStuck', hFlag', hReported, -, -⟩ := hOut
            refine ⟨hTracks', hStuck', hFlag', hReported, fun _ _ => ?_, False.elim⟩
            simp [ModelSearch.cost, hRes]
      · simp only [hRes, if_true]
        refine ⟨{ st with stuck := true }, .single (.stuck hStuck hRes hNone), ?_⟩
        refine ⟨hTracks.stuck answer.vals, rfl, hFlag, rfl, fun hCurrent hTrue => ?_, fun _ => ?_⟩
        · simp [hFlag, hCurrent] at hTrue
        · simp [ModelSearch.cost, hRes]

/-- The outer loop runs until the machine halts, and what it returns has been
reported by the machine in this order. -/
theorem enumerateModels_ensures (fuel : Nat) {s : CadicalSatSolver}
    {st : ModelSearch} (hTracks : Tracks af active s st) (hStuck : st.stuck = false)
    (hCurrent : st.current = none) :
    Ensures Correct (enumerateModels af active fuel s st.reported) (fun out trace =>
      ∃ st', Runs (ModelSearch.Step af active) st trace st' ∧
        match out with
        | .ok result => st'.Halted ∧ result = st'.reported ∧
            (af.args + 1 = 2 ^ 31 → (trace.map ModelSearch.cost).sum = 0)
        | .error fault => Stops af fuel fault trace) := by
  induction fuel generalizing s st with
  | zero => exact ⟨st, .nil st, Or.inl ⟨rfl, Nat.zero_le _⟩⟩
  | succ fuel ih =>
      rw [enumerateModels]
      refine Ensures.seq _ (minimizeModel_ensures hActive hValid (fuel + 1) hTracks hStuck
        (by rw [hCurrent]; rfl)) ?_ ?_
      · intro fault trace hRun
        obtain ⟨st', hRuns, hOut⟩ := hRun
        exact ⟨st', hRuns, hOut⟩
      · rintro ⟨s', flag⟩ trace ⟨st', hRuns, hTracks', hStuck', hFlag, hReported, hFound, hZero⟩
        cases hCurrent' : st'.current with
        | none =>
            simp only [hFlag, hCurrent', Option.isSome_none]
            exact ⟨st', by simpa using hRuns, ⟨hStuck', hCurrent'⟩, hReported.symm,
              by simpa using hZero⟩
        | some set =>
            have hSet := hTracks'.model set hCurrent'
            have hNext := ih (hTracks'.report hStuck' set) rfl rfl
            have hCost := hFound hCurrent (by rw [hFlag, hCurrent']; rfl)
            simp only [hFlag, hCurrent', Option.isSome_some, if_true]
            apply Ensures.log
            rw [hSet, ← hReported]
            apply hNext.mono
            intro out later hRun
            obtain ⟨st'', hRuns', hOut⟩ := hRun
            refine ⟨st'', hRuns.append (.cons (.push hStuck' hCurrent') hRuns'), ?_⟩
            cases out with
            | error fault =>
                refine hOut.imp (fun hFuel => ⟨hFuel.1, ?_⟩) (fun hOver => ⟨hOver.1, hOver.2.1, ?_⟩)
                · have hSpent := hFuel.2
                  simp only [List.map_append, List.map_cons, List.sum_append, List.sum_cons]
                  omega
                · simp only [List.map_append, List.sum_append]
                  omega
            | ok result =>
                refine ⟨hOut.1, hOut.2.1, fun hLast => ?_⟩
                have hNone := hZero hLast
                omega

omit hActive hValid in
/-- The constructor makes a solver without clauses, whose model has a place for each
argument. -/
theorem new_eq (hArgs : af.args < 2 ^ 31) : CadicalSatSolver.new (toInt32 af.args) =
    pure ⟨Cadical.Solver.new, af.args, List.replicate af.args false⟩ := by
  rw [toInt32_of_lt hArgs, CadicalSatSolver.new, if_neg (by omega), Int.toNat_natCast]

end Loops

/-- The given lists are the minimal accepted sets, each of them once and in the
order of the array. -/
structure Enumerates (af : AF) (active : IterableBitSet) (result : List (List Nat)) : Prop where
  sublist : ∀ set ∈ result, set.Sublist active.array
  nodup : (result.map setOf).Nodup
  mem_iff : ∀ S, S ∈ result.map setOf ↔ Minimal (ModelSearch.Wanted af active) S

/-- Every record is a run of the machine, and with a fuel of `2 ^ n` for `n` active
arguments the minimal accepted sets are returned. Only valid literals are needed. -/
theorem enumerateInitial_ensures {af : AF} {active : IterableBitSet} (hActive : active.Valid af)
    (hValid : LiteralsValid af active) (hArgs : active.array ≠ [] → af.args < 2 ^ 31) (fuel : Nat) :
    Ensures Correct (enumerateInitial fuel af active) (fun out trace =>
      ∃ st, Runs (ModelSearch.Step af active) .start trace st ∧
        match out with
        | .ok result => Enumerates af active result ∧ result = st.reported ∧
            (af.args + 1 = 2 ^ 31 → (trace.map ModelSearch.cost).sum = 0)
        | .error fault => Stops af fuel fault trace) := by
  unfold enumerateInitial
  by_cases hEmpty : active.array = []
  · rw [if_pos (by simp [hEmpty])]
    refine ⟨_, .nil _, ⟨by simp, by simp, fun S => ?_⟩, rfl, fun _ => rfl⟩
    simp only [List.map_nil, List.not_mem_nil, false_iff]
    intro hS
    obtain ⟨⟨a, ha⟩, hAdm⟩ := hS.prop.sound hActive hValid
    simpa [hEmpty] using hAdm.subset ha
  · have hArgs := hArgs hEmpty
    have hReady :
        (⟨Cadical.Solver.new, af.args, List.replicate af.args false⟩ : CadicalSatSolver).Ready :=
      ⟨by simp [Cadical.Solver.new], rfl⟩
    have hTracks : Tracks af active (CadicalSatSolver.withClauses
        ⟨Cadical.Solver.new, af.args, List.replicate af.args false⟩
          (encoding af active)) .start := by
      refine ⟨hReady.withClauses _, by simp, ?_, ?_, by rintro set ⟨⟩⟩
      · rw [CadicalSatSolver.clauses_withClauses]
        simp [CadicalSatSolver.clauses, Cadical.Solver.new, ModelSearch.query, ModelSearch.start]
      · rw [CadicalSatSolver.pending_withClauses]
        rfl
    rw [if_neg (by simpa using hEmpty), new_eq hArgs, pure_bind,
      admissibleNonempty_eq hActive hValid hReady, pure_bind]
    apply (enumerateModels_ensures hActive hValid fuel hTracks rfl rfl).mono
    intro out trace hRun
    obtain ⟨st, hRuns, hOut⟩ := hRun
    refine ⟨st, hRuns, ?_⟩
    cases out with
    | error fault => exact hOut
    | ok result =>
        obtain ⟨hHalted, rfl, hZero⟩ := hOut
        have hInv := ModelSearch.invariant_of_runs hActive hValid hRuns
        exact ⟨⟨hInv.reported_sublist, (hInv.halted hHalted).1, (hInv.halted hHalted).2⟩,
          rfl, hZero⟩

/-- While the literals fit, what is returned are the initial sets, stale arguments
counting as helpers, and only the fuel can be too small. -/
theorem enumerateInitial_of_fit {af : AF} (h : af.WellFormed) {active : IterableBitSet}
    (hActive : active.Valid af) (hFit : LiteralsFit af active) (fuel : Nat) :
    Ensures Correct (enumerateInitial fuel af active) (fun out _ =>
      match out with
      | .ok result => (∀ set ∈ result, set.Sublist active.array) ∧ (result.map setOf).Nodup ∧
          ∀ S, S ∈ result.map setOf ↔ IsInitialWith af.Attacks active.actives active.stales S
      | .error fault => fault = .outOfFuel ∧ fuel < 2 ^ active.array.length) := by
  have hArgs : active.array ≠ [] → af.args + 1 < 2 ^ 31 := by
    intro hNonempty
    obtain ⟨a, ha⟩ := List.exists_mem_of_ne_nil _ hNonempty
    have hRange := hFit a (hActive.covers a ha)
    omega
  refine (enumerateInitial_ensures hActive hFit.valid (fun hNonempty => ?_) fuel).mono ?_
  · have hLess := hArgs hNonempty
    omega
  intro out trace hRun
  obtain ⟨st, hRuns, hOut⟩ := hRun
  cases out with
  | error fault =>
      have hCost := ModelSearch.cost_lt hActive hFit.valid hRuns
      rcases hOut with ⟨rfl, hSpent⟩ | ⟨-, hLast, hFound⟩
      · exact ⟨rfl, by omega⟩
      · by_cases hEmpty : active.array = []
        · simp only [hEmpty, List.length_nil] at hCost
          omega
        · have hLess := hArgs hEmpty
          omega
  | ok result =>
      refine ⟨hOut.1.sublist, hOut.1.nodup, fun S => ?_⟩
      rw [hOut.1.mem_iff, ModelSearch.minimal_wanted_iff h hActive hFit]

/-- From `2 ^ 31` arguments on their number is negative as an `int`, and a vector of
such a size cannot be made. -/
theorem new_fails {af : AF} (hArgs : af.args < 2 ^ 32) (hLarge : 2 ^ 31 ≤ af.args) :
    CadicalSatSolver.new (toInt32 af.args) = .fail .lengthError := by
  refine if_pos ?_
  unfold toInt32
  rw [Int.bmod_def]
  split <;> omega

/-- With so many arguments that some variable is no `int`, nothing is returned from
the full set of active arguments, however much fuel there is. -/
theorem enumerateInitial_fails {af : AF} {active : IterableBitSet} (hArray : active.array ≠ [])
    (hArgs : af.args < 2 ^ 32)
    (hLarge : 2 ^ 31 ≤ af.args ∨ ∃ a ∈ active.array, a < af.args ∧ af.args + a + 1 = 2 ^ 31) :
    ∃ fault, ∀ fuel, enumerateInitial fuel af active = .fail fault := by
  simp only [enumerateInitial, if_neg (show ¬ active.array.isEmpty = true by simpa using hArray)]
  rcases hLarge with hLarge | ⟨a, ha, hLess, hVar⟩
  · exact ⟨.lengthError, fun fuel => by rw [new_fails hArgs hLarge, fail_bind]⟩
  · rw [new_eq (by omega)]
    obtain ⟨fault, hFault⟩ := admissibleNonempty_fails ha hLess (Or.inl rfl) hVar
    exact ⟨fault, fun fuel => by rw [pure_bind, hFault, fail_bind]⟩

section AnySolver

variable {af : AF} {active : IterableBitSet}

theorem new_immediate (nArgs : Int) : (CadicalSatSolver.new nArgs).Immediate := by
  by_cases hNegative : nArgs < 0
  · exact Or.inr ⟨_, if_pos hNegative⟩
  · exact Or.inl ⟨_, if_neg hNegative⟩

theorem admissibleNonempty_immediate (s : CadicalSatSolver) :
    (admissibleNonempty af active s).Immediate := by
  unfold admissibleNonempty
  refine (Immediate.forIn fun arg acc => ?_).bind fun _ => CadicalSatSolver.addClause_immediate _ _
  apply (CadicalSatSolver.addClause2_immediate _ _ _).bind
  intro _
  refine (Immediate.forIn fun attacker acc => ?_).bind fun _ => ?_
  · dsimp only
    split_ifs
    · exact (CadicalSatSolver.addClause2_immediate _ _ _).bind fun _ => Or.inl ⟨_, rfl⟩
    · exact Or.inl ⟨_, rfl⟩
  · exact (CadicalSatSolver.addClause_immediate _ _).bind fun _ => Or.inl ⟨_, rfl⟩

/-- The encoding needs no fuel: its loops are over the active arguments and their
attackers. -/
theorem admissibleNonempty_avoids {admits : Query → Answer → Prop} (s : CadicalSatSolver) :
    Avoids admits .outOfFuel (admissibleNonempty af active s) := by
  unfold admissibleNonempty
  refine (Avoids.forIn fun arg _ acc => ?_).bind fun _ => CadicalSatSolver.addClause_avoids _ _
  apply (CadicalSatSolver.addClause2_avoids _ _ _).bind
  intro _
  refine (Avoids.forIn fun attacker _ acc => ?_).bind fun _ => ?_
  · dsimp only
    split_ifs
    · exact (CadicalSatSolver.addClause2_avoids _ _ _).bind fun _ => avoids_pure _
    · exact avoids_pure _
  · exact (CadicalSatSolver.addClause_avoids _ _).bind fun _ => avoids_pure _

theorem excludeModel_immediate (s : CadicalSatSolver) : (excludeModel af active s).Immediate := by
  unfold excludeModel
  refine (Immediate.forIn fun arg acc => ?_).bind fun _ => CadicalSatSolver.addClause_immediate _ _
  dsimp only
  split_ifs
  · exact Or.inl ⟨_, rfl⟩
  · exact (CadicalSatSolver.assume_immediate _ _).bind fun _ => Or.inl ⟨_, rfl⟩

/-- The inner loop shows nothing at all, whatever the solver answers. -/
theorem minimizeModel_emits (allowed : Event → Prop) (fuel : Nat) (s : CadicalSatSolver)
    (foundExtension : Bool) : (minimizeModel af active fuel s foundExtension).Emits allowed := by
  induction fuel generalizing s foundExtension with
  | zero => exact Immediate.emits (Or.inr ⟨_, rfl⟩)
  | succ fuel ih =>
      refine (CadicalSatSolver.solve_emits allowed s).bind fun ⟨sat, solver⟩ => ?_
      dsimp only
      split_ifs
      · exact Immediate.emits (Or.inl ⟨_, rfl⟩)
      · exact (excludeModel_immediate solver).emits.bind fun next => ih next true

/-- The record shows nothing but questions, answers and found sets: no call is made
and nothing is printed. -/
def Quiet (trace : Trace) : Prop :=
  ∀ event, .event event ∈ trace → ∃ extension, event = .push extension

theorem quiet_nil : Quiet [] := by simp [Quiet]

theorem Quiet.append {trace later : Trace} (h : Quiet trace) (hLater : Quiet later) :
    Quiet (trace ++ later) := by
  intro event hEvent
  exact (List.mem_append.mp hEvent).elim (h event) (hLater event)

theorem Quiet.push {trace : Trace} (h : Quiet trace) (extension : List Nat) :
    Quiet (.event (.push extension) :: trace) := by
  intro event hEvent
  cases List.mem_cons.mp hEvent with
  | inl hHere => exact ⟨extension, Entry.event.inj hHere⟩
  | inr hLater => exact h event hLater

/-- The sets that are returned are collected from the array, so that this holds for
answers of any kind. -/
theorem enumerateModels_draws (fuel : Nat) (s : CadicalSatSolver) (result : List (List Nat)) :
    Ensures (fun _ _ => True) (enumerateModels af active fuel s result) (fun out trace =>
      Quiet trace ∧ ∀ sets, out = .ok sets →
        ∀ set ∈ sets, set ∈ result ∨ ∀ a ∈ set, a ∈ active.array) := by
  induction fuel generalizing s result with
  | zero => exact ⟨quiet_nil, by simp⟩
  | succ fuel ih =>
      rw [enumerateModels]
      refine Ensures.seq _ (minimizeModel_emits (fun event => ∃ extension, event = .push extension)
        (fuel + 1) s false) (fun fault trace hQuiet => ⟨hQuiet, by simp⟩) ?_
      rintro ⟨s', foundExtension⟩ trace (hQuiet : Quiet trace)
      cases foundExtension with
      | false =>
          refine ⟨hQuiet.append quiet_nil, ?_⟩
          rintro sets ⟨⟩ set hSet
          exact Or.inl hSet
      | true =>
          refine Ensures.log ((ih s' _).mono ?_)
          intro out later hPost
          obtain ⟨hLater, hDrawn⟩ := hPost
          refine ⟨hQuiet.append (hLater.push _), fun sets hSets set hSet => ?_⟩
          cases hDrawn sets hSets set hSet with
          | inl hMem =>
              cases List.mem_append.mp hMem with
              | inl hOld => exact Or.inl hOld
              | inr hNew =>
                  rw [List.mem_singleton.mp hNew]
                  exact Or.inr fun a ha => List.mem_of_mem_filter ha
          | inr hActive => exact Or.inr hActive

/-- Whatever the solver answers, only sets are pushed, and the sets returned consist
of active arguments. -/
theorem enumerateInitial_draws (fuel : Nat) :
    Ensures (fun _ _ => True) (enumerateInitial fuel af active) (fun out trace =>
      Quiet trace ∧ ∀ sets, out = .ok sets → ∀ set ∈ sets, ∀ a ∈ set, a ∈ active.array) := by
  unfold enumerateInitial
  generalize toInt32 af.args = nArgs
  split_ifs
  · refine ⟨quiet_nil, ?_⟩
    rintro sets ⟨⟩ set hSet
    simp at hSet
  · refine (new_immediate _).seq (fun _ => ⟨quiet_nil, by simp⟩) fun s => ?_
    refine (admissibleNonempty_immediate s).seq (fun _ => ⟨quiet_nil, by simp⟩) fun s => ?_
    apply (enumerateModels_draws fuel s []).mono
    intro out trace hPost
    obtain ⟨hQuiet, hDrawn⟩ := hPost
    exact ⟨hQuiet, fun sets hSets set hSet => (hDrawn sets hSets set hSet).resolve_left (by simp)⟩

end AnySolver

end SerialisationSolver
