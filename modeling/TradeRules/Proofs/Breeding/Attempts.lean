import TradeRules.Proofs.Breeding.Programme

/-!
# Attempts at a new strategy

A call for a new strategy makes attempts one after another (`Programme.trials`), and what it returns is
decided by the last of them (`attempt_eq`).  An attempt goes on to the next one only when its candidate
may not be scored, or when its rules could not be evaluated.  So the candidate that is returned is the
first that could be scored, and a call is exhausted exactly when all its attempts went on.

What the backtester is asked is seen by a backtester that records its calls (`Backtester.recording`).
Recording changes nothing else (`attempt_recording`), and the record consists of the rules of candidates
that may be scored.
-/

namespace TradeRules

/-- What an attempt at a new strategy comes to. -/
inductive Trial where
  /-- No candidate could be made. -/
  | unmade (e : BreedError)
  /-- The candidate may not be scored. -/
  | invalid (c : Strategy)
  /-- The rules of the candidate could not be evaluated. -/
  | unusable (c : Strategy) (e : TradeError)
  /-- The backtester failed for another reason. -/
  | failed (c : Strategy) (e : TradeError)
  /-- The candidate was scored. -/
  | scored (c : Strategy) (value : Float)

namespace Trial

/-- Whether another attempt follows, if there is one left. -/
def goesOn : Trial → Bool
  | invalid _ | unusable .. => true
  | unmade _ | failed .. | scored .. => false

/-- The rules that the backtester was asked to score, if it was asked. -/
def asked? : Trial → Option Rules
  | unmade _ | invalid _ => none
  | unusable c _ | failed c _ | scored c _ => some c.rules

end Trial

/-- A backtester that records the rules it is called with. -/
def Backtester.recording {σ : Type} (b : Backtester σ) : Backtester (σ × List Rules) :=
  fun rules t => ((b rules t.1).1, ((b rules t.1).2, t.2 ++ [rules]))

/-- A stage with a record of calls. -/
def Stage.withRecord {σ : Type} (s : Stage σ) (record : List Rules) : Stage (σ × List Rules) :=
  { draws := s.draws
    testing := (s.testing, record)
    parents := s.parents
    parentTotal := s.parentTotal
    survivors := s.survivors
    generation := s.generation }

namespace Programme

variable {σ : Type} {p : Programme σ} {s : Stage σ} {n : ℕ} {t : Trial}

/-- The programme with a backtester that records its calls. -/
def recording (p : Programme σ) : Programme (σ × List Rules) :=
  { settings := p.settings
    capital := p.capital
    generators := p.generators
    backtester := p.backtester.recording }

/-- One attempt, and the stage after it before any competition. -/
def trial (p : Programme σ) (s : Stage σ) : Trial × Stage σ :=
  match (p.candidate s).run.run s.draws with
  | (.error e, draws) => (.unmade e, { s with draws })
  | (.ok c, draws) =>
    if p.accepts c then
      match p.backtester c.rules s.testing with
      | (.ok value, testing) => (.scored c value, { s with draws, testing })
      | (.error e, testing) =>
        (if e.isEvaluation then .unusable c e else .failed c e, { s with draws, testing })
    else (.invalid c, { s with draws })

/-- The attempts that are made, at most a number of them, and the stage after the last. -/
def trials (p : Programme σ) : ℕ → Stage σ → List Trial × Stage σ
  | 0, s => ([], s)
  | n + 1, s =>
    if (p.trial s).1.goesOn then
      ((p.trial s).1 :: (p.trials n (p.trial s).2).1, (p.trials n (p.trial s).2).2)
    else ([(p.trial s).1], (p.trial s).2)

/-- What a call comes to after its last attempt, if there was one. -/
def conclude (p : Programme σ) (s : Stage σ) :
    Option Trial → Except ProgrammeError Strategy × Stage σ
  | some (.scored c value) =>
    (.ok (c.scored value),
      { s with survivors := p.compete s.survivors (c.scored value) value })
  | some (.unmade e) => (.error (.breed e), s)
  | some (.failed _ e) => (.error (.trade e), s)
  | _ => (.error (.exhausted p.settings.maxAttempts s.generation), s)

/-! ## What an attempt says -/

/-- Whether a candidate is made at a stage, from some draws. -/
def Makes (p : Programme σ) (s : Stage σ) (c : Strategy) : Prop :=
  ∃ d d', (p.candidate s).run.run d = (.ok c, d')

/-- Whether the backtester gives an answer for rules, in some state of its own. -/
def Answers (p : Programme σ) (rules : Rules) (answer : Except TradeError Float) : Prop :=
  ∃ t t', p.backtester rules t = (answer, t')

/-- What an attempt at a stage says of its candidate. -/
def Tells (p : Programme σ) (s : Stage σ) : Trial → Prop
  | .unmade e => ∃ d d', (p.candidate s).run.run d = (.error e, d')
  | .invalid c => p.Makes s c ∧ p.accepts c = false
  | .unusable c e =>
    p.Makes s c ∧ p.accepts c = true ∧ p.Answers c.rules (.error e) ∧ e.isEvaluation = true
  | .failed c e =>
    p.Makes s c ∧ p.accepts c = true ∧ p.Answers c.rules (.error e) ∧ e.isEvaluation = false
  | .scored c value => p.Makes s c ∧ p.accepts c = true ∧ p.Answers c.rules (.ok value)

/-- An attempt changes at most the draws and the state of the backtester. -/
theorem trial_stage (p : Programme σ) (s : Stage σ) :
    ∃ draws testing, (p.trial s).2 = { s with draws, testing } := by
  unfold trial
  rcases (p.candidate s).run.run s.draws with ⟨_ | c, draws⟩
  · exact ⟨draws, s.testing, rfl⟩
  · dsimp only
    split_ifs
    · rcases p.backtester c.rules s.testing with ⟨_ | _, testing⟩
      · exact ⟨draws, testing, rfl⟩
      · exact ⟨draws, testing, rfl⟩
    · exact ⟨draws, s.testing, rfl⟩

theorem tells_trial (p : Programme σ) (s : Stage σ) : p.Tells s (p.trial s).1 := by
  unfold trial
  rcases hrun : (p.candidate s).run.run s.draws with ⟨e | c, draws⟩
  · exact ⟨_, _, hrun⟩
  · have hmakes : p.Makes s c := ⟨_, _, hrun⟩
    dsimp only
    split_ifs with haccepts
    · rcases htest : p.backtester c.rules s.testing with ⟨e | value, testing⟩
      · have hanswers : p.Answers c.rules (.error e) := ⟨_, _, htest⟩
        dsimp only
        split_ifs with he
        · exact ⟨hmakes, haccepts, hanswers, he⟩
        · exact ⟨hmakes, haccepts, hanswers, Bool.eq_false_iff.mpr he⟩
      · exact ⟨hmakes, haccepts, _, _, htest⟩
    · exact ⟨hmakes, Bool.eq_false_iff.mpr haccepts⟩

/-- The backtester is asked only about rules of candidates that may be scored. -/
theorem Tells.accepts {rules : Rules} (h : p.Tells s t) (hasked : t.asked? = some rules) :
    ∃ c, p.Makes s c ∧ c.rules = rules ∧ p.accepts c = true := by
  cases t with
  | unmade e => cases hasked
  | invalid c => cases hasked
  | unusable c e =>
    cases hasked
    exact ⟨c, h.1, rfl, h.2.1⟩
  | failed c e =>
    cases hasked
    exact ⟨c, h.1, rfl, h.2.1⟩
  | scored c value =>
    cases hasked
    exact ⟨c, h.1, rfl, h.2.1⟩

/-! ## All attempts of a call -/

/-- Attempts change at most the draws and the state of the backtester. -/
theorem trials_stage (p : Programme σ) (n : ℕ) (s : Stage σ) :
    ∃ draws testing, (p.trials n s).2 = { s with draws, testing } := by
  induction n generalizing s with
  | zero => exact ⟨s.draws, s.testing, rfl⟩
  | succ n ih =>
    obtain ⟨draws, testing, hs⟩ := p.trial_stage s
    unfold trials
    split_ifs
    · obtain ⟨draws', testing', hrest⟩ := ih (p.trial s).2
      exact ⟨draws', testing', by rw [hrest, hs]⟩
    · exact ⟨draws, testing, hs⟩

/-- There are at most as many attempts as are allowed, and as many if the last goes on. -/
theorem length_trials (p : Programme σ) (n : ℕ) (s : Stage σ) :
    (p.trials n s).1.length ≤ n ∧
      ((∀ t ∈ (p.trials n s).1, t.goesOn = true) → (p.trials n s).1.length = n) := by
  induction n generalizing s with
  | zero => exact ⟨le_rfl, fun _ => rfl⟩
  | succ n ih =>
    obtain ⟨hle, heq⟩ := ih (p.trial s).2
    unfold trials
    split_ifs with hgoes
    · refine ⟨Nat.succ_le_succ hle, fun h => congrArg Nat.succ (heq fun t ht => ?_)⟩
      exact h t (List.mem_cons_of_mem _ ht)
    · exact ⟨Nat.succ_le_succ n.zero_le, fun h => absurd (h _ List.mem_cons_self) hgoes⟩

/-- What an attempt tells does not depend on the draws of the stage, nor on the backtester there. -/
theorem tells_congr {draws : Draws} {testing : σ} :
    p.Tells { s with draws, testing } t ↔ p.Tells s t := by
  cases t <;> rfl

/-- Each attempt tells of the stage of the call, and goes on unless it is the last. -/
theorem tells_trials (p : Programme σ) (n : ℕ) (s : Stage σ) :
    (∀ t ∈ (p.trials n s).1, p.Tells s t) ∧
      ∀ t ∈ (p.trials n s).1.dropLast, t.goesOn = true := by
  induction n generalizing s with
  | zero => exact ⟨fun _ ht => absurd ht List.not_mem_nil, fun _ ht => absurd ht List.not_mem_nil⟩
  | succ n ih =>
    unfold trials
    split_ifs with hgoes
    · obtain ⟨htells, hgo⟩ := ih (p.trial s).2
      obtain ⟨draws, testing, hs⟩ := p.trial_stage s
      refine ⟨fun t ht => ?_, fun t ht => ?_⟩
      · rcases List.mem_cons.mp ht with rfl | ht
        · exact p.tells_trial s
        · have hlater := htells t ht
          rw [hs] at hlater
          exact tells_congr.mp hlater
      · cases hrest : (p.trials n (p.trial s).2).1 with
        | nil =>
          rw [hrest] at ht
          cases ht
        | cons second rest =>
          rw [hrest, List.dropLast_cons_cons, List.mem_cons, ← hrest] at ht
          rcases ht with rfl | ht
          · exact hgoes
          · exact hgo t ht
    · refine ⟨fun t ht => ?_, fun _ ht => absurd ht List.not_mem_nil⟩
      rw [List.mem_singleton.mp ht]
      exact p.tells_trial s

/-- An attempt that goes on decides nothing. -/
theorem conclude_cons (p : Programme σ) (s : Stage σ) (hgoes : t.goesOn = true) (ts : List Trial) :
    p.conclude s (t :: ts).getLast? = p.conclude s ts.getLast? := by
  cases ts with
  | nil => cases t <;> first | rfl | cases hgoes
  | cons second rest => rw [List.getLast?_cons_cons]

/-- A call makes an attempt and then goes on or ends. -/
theorem attempt_succ (p : Programme σ) (n : ℕ) (s : Stage σ) :
    p.attempt (n + 1) s =
      if (p.trial s).1.goesOn then p.attempt n (p.trial s).2
      else p.conclude (p.trial s).2 (some (p.trial s).1) := by
  rw [attempt, trial]
  rcases (p.candidate s).run.run s.draws with ⟨_ | c, draws⟩
  · rfl
  · cases haccepts : p.accepts c with
    | false => simp [haccepts, Trial.goesOn]
    | true =>
      rcases htest : p.backtester c.rules s.testing with ⟨e | value, testing⟩
      · cases he : e.isEvaluation <;> simp [haccepts, htest, he, Trial.goesOn, conclude]
      · simp [haccepts, htest, Trial.goesOn, conclude]

/-- A call comes to what its last attempt decides. -/
theorem attempt_eq (p : Programme σ) (n : ℕ) (s : Stage σ) :
    p.attempt n s = p.conclude (p.trials n s).2 (p.trials n s).1.getLast? := by
  induction n generalizing s with
  | zero => rfl
  | succ n ih =>
    rw [attempt_succ, trials]
    split_ifs with hgoes
    · rw [ih, conclude_cons p _ hgoes]
    · rfl

/-! ## Recorded calls of the backtester -/

theorem trial_recording (p : Programme σ) (s : Stage σ) (record : List Rules) :
    p.recording.trial (s.withRecord record) =
      ((p.trial s).1, (p.trial s).2.withRecord (record ++ (p.trial s).1.asked?.toList)) := by
  have hcandidate : p.recording.candidate (s.withRecord record) = p.candidate s := rfl
  have haccepts : p.recording.accepts = p.accepts := rfl
  have htester : p.recording.backtester = p.backtester.recording := rfl
  rw [trial, trial, hcandidate, haccepts, htester]
  simp only [Stage.withRecord, Backtester.recording]
  rcases (p.candidate s).run.run s.draws with ⟨_ | c, draws⟩
  · simp [Trial.asked?]
  · cases haccepts : p.accepts c with
    | false => simp [haccepts, Trial.asked?]
    | true =>
      rcases htest : p.backtester c.rules s.testing with ⟨e | value, testing⟩
      · cases he : e.isEvaluation <;> simp [haccepts, htest, he, Trial.asked?]
      · simp [haccepts, htest, Trial.asked?]

theorem conclude_recording (p : Programme σ) (s : Stage σ) (record : List Rules)
    (last : Option Trial) :
    p.recording.conclude (s.withRecord record) last =
      ((p.conclude s last).1, (p.conclude s last).2.withRecord record) := by
  rcases last with _ | (_ | _ | _ | _ | _) <;> rfl

/-- Recording the calls of the backtester changes nothing else.  The record gets the rules that the
attempts ask about, in order. -/
theorem attempt_recording (p : Programme σ) (n : ℕ) (s : Stage σ) (record : List Rules) :
    p.recording.attempt n (s.withRecord record) =
      ((p.attempt n s).1, (p.attempt n s).2.withRecord
        (record ++ (p.trials n s).1.filterMap Trial.asked?)) := by
  induction n generalizing s record with
  | zero => simp [attempt, trials, recording, Stage.withRecord]
  | succ n ih =>
    rw [attempt_succ, attempt_succ, trials, trial_recording]
    dsimp only
    split_ifs
    · rw [ih]
      cases hasked : (p.trial s).1.asked? <;> simp [hasked]
    · rw [conclude_recording]
      cases hasked : (p.trial s).1.asked? <;> simp [hasked]

/-! ## Calls for a strategy -/

/-- The strategy that is concluded with is the scored one of the last attempt. -/
theorem conclude_eq_ok {last : Option Trial} {c : Strategy} :
    (p.conclude s last).1 = .ok c ↔
      ∃ d value, last = some (.scored d value) ∧ c = d.scored value := by
  rcases last with _ | (_ | _ | _ | _ | ⟨d, value⟩) <;> simp [conclude, eq_comm]

/-- A call is exhausted when there was no attempt, or the last one went on. -/
theorem conclude_eq_exhausted {last : Option Trial} {m : ℤ} {g : ℕ} :
    (p.conclude s last).1 = .error (.exhausted m g) ↔
      (p.settings.maxAttempts = m ∧ s.generation = g) ∧ ∀ t, last = some t → t.goesOn = true := by
  rcases last with _ | (_ | _ | _ | _ | _) <;> simp [conclude, Trial.goesOn]

/-- A call fails and leaves the stage, or it returns a strategy, which has competed. -/
theorem conclude_stage (p : Programme σ) (s : Stage σ) (last : Option Trial) :
    match (p.conclude s last).1 with
    | .error _ => (p.conclude s last).2 = s
    | .ok c => ∃ value, c.value = some value ∧
        (p.conclude s last).2 = { s with survivors := p.compete s.survivors c value } := by
  rcases last with _ | (_ | _ | _ | _ | ⟨d, value⟩)
  all_goals first | rfl | exact ⟨value, rfl, rfl⟩

/-- All attempts go on when the last does, since those before it do in any case. -/
theorem forall_goesOn_iff {ts : List Trial} (h : ∀ t ∈ ts.dropLast, t.goesOn = true) :
    (∀ t, ts.getLast? = some t → t.goesOn = true) ↔ ∀ t ∈ ts, t.goesOn = true := by
  constructor
  · intro hlast t ht
    cases ts using List.reverseRecOn with
    | nil => cases ht
    | append_singleton ts last =>
      rw [List.dropLast_concat] at h
      rcases List.mem_append.mp ht with ht | ht
      · exact h t ht
      · rw [List.mem_singleton.mp ht]
        exact hlast last List.getLast?_concat
  · exact fun hall t ht => hall t (List.mem_of_getLast? ht)

/-- A call for a strategy is bounded, and it changes nothing but what it returns.

It comes to what the last of its attempts decides.  It makes at most as many attempts as the settings
allow, each with a candidate of its own, and asks the backtester only about candidates that may be
scored.  It returns the first that is scored, with its score, and is exhausted exactly when no attempt is
left and all candidates were invalid or could not be evaluated.  A call that fails leaves both pools, the
sum of the values and the generation as they are, and one that returns a strategy changes only the
survivors, by the competition. -/
theorem calls_are_bounded_and_atomic (p : Programme σ) (s : Stage σ) :
    let limit := p.settings.maxAttempts.toNat
    let ts := (p.trials limit s).1
    let asked := ts.filterMap Trial.asked?
    p.nextStrategy s = p.conclude (p.trials limit s).2 ts.getLast? ∧
    (ts.length ≤ limit ∧ (∀ t ∈ ts, p.Tells s t) ∧ ∀ t ∈ ts.dropLast, t.goesOn = true) ∧
    (p.recording.nextStrategy (s.withRecord []) =
        ((p.nextStrategy s).1, (p.nextStrategy s).2.withRecord asked) ∧
      ∀ rules ∈ asked, ∃ c, p.Makes s c ∧ c.rules = rules ∧
        c.isValid p.settings.minDepth p.settings.maxDepth p.settings.requireBuyQuote = true) ∧
    (∀ c, (p.nextStrategy s).1 = .ok c ↔
      ∃ d value, ts.getLast? = some (.scored d value) ∧ c = d.scored value) ∧
    (∀ m g, (p.nextStrategy s).1 = .error (.exhausted m g) ↔
      (p.settings.maxAttempts = m ∧ s.generation = g) ∧
        ts.length = limit ∧ ∀ t ∈ ts, t.goesOn = true) ∧
    (∀ e, (p.nextStrategy s).1 = .error e →
      ∃ draws testing, (p.nextStrategy s).2 = { s with draws, testing }) ∧
    ∀ c, (p.nextStrategy s).1 = .ok c →
      ∃ draws testing value, c.value = some value ∧ (p.nextStrategy s).2 =
        { s with draws, testing, survivors := p.compete s.survivors c value } := by
  intro limit ts asked
  obtain ⟨htells, hgo⟩ := p.tells_trials limit s
  obtain ⟨hlength, hfull⟩ := p.length_trials limit s
  obtain ⟨draws, testing, hstage⟩ := p.trials_stage limit s
  have hcall : p.nextStrategy s = p.conclude { s with draws, testing } ts.getLast? :=
    hstage ▸ p.attempt_eq limit s
  have hleft := p.conclude_stage { s with draws, testing } ts.getLast?
  refine ⟨p.attempt_eq limit s, ⟨hlength, htells, hgo⟩, ⟨?_, fun rules hrules => ?_⟩, fun c => ?_,
    fun m g => ?_, fun e he => ?_, fun c hc => ?_⟩
  · exact p.attempt_recording limit s []
  · obtain ⟨t, ht, hasked⟩ := List.mem_filterMap.mp hrules
    exact (htells t ht).accepts hasked
  · rw [hcall, conclude_eq_ok]
  · rw [hcall, conclude_eq_exhausted, forall_goesOn_iff hgo]
    exact and_congr_right fun _ => ⟨fun hall => ⟨hfull hall, hall⟩, fun h => h.2⟩
  · rw [hcall] at he ⊢
    rw [he] at hleft
    exact ⟨draws, testing, hleft⟩
  · rw [hcall] at hc ⊢
    rw [hc] at hleft
    obtain ⟨value, hvalue, hleft⟩ := hleft
    exact ⟨draws, testing, value, hvalue, hleft⟩

end Programme

end TradeRules
