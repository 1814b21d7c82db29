import Mathlib.Data.Rat.Defs
import Mathlib.Algebra.Order.Ring.Rat
import Mathlib.Tactic.Linarith

/-!
# The circuit breaker of the OpenAI adapter

`SimpleCircuitBreaker` of `openai_adapter.py`, which keeps a count and one
reading of the clock, against the history of the calls made on it.  The calls of
overlapping requests share one breaker, so they come in any order.
-/

namespace AliceSkill

structure SimpleCircuitBreaker where
  failureThreshold : ℕ := 3
  resetAfterSeconds : ℚ := 20
  failures : ℕ := 0
  openedAt : ℚ := 0

/-- A call on the breaker, with the reading of the clock at that moment where
the call depends on it. -/
inductive BreakerCall where
  | allow (now : ℚ)
  | recordSuccess
  | recordFailure (now : ℚ)

namespace SimpleCircuitBreaker

def allow (breaker : SimpleCircuitBreaker) (now : ℚ) :
    Bool × SimpleCircuitBreaker :=
  if breaker.failures < breaker.failureThreshold then (true, breaker)
  else if now - breaker.openedAt ≥ breaker.resetAfterSeconds then
    (true, { breaker with failures := 0, openedAt := 0 })
  else (false, breaker)

def recordSuccess (breaker : SimpleCircuitBreaker) : SimpleCircuitBreaker :=
  { breaker with failures := 0, openedAt := 0 }

def recordFailure (breaker : SimpleCircuitBreaker) (now : ℚ) :
    SimpleCircuitBreaker :=
  let failures := breaker.failures + 1
  if failures ≥ breaker.failureThreshold then
    { breaker with failures := failures, openedAt := now }
  else { breaker with failures := failures }

/-- The state a call leaves behind. -/
def after (breaker : SimpleCircuitBreaker) : BreakerCall → SimpleCircuitBreaker
  | .allow now => (breaker.allow now).2
  | .recordSuccess => breaker.recordSuccess
  | .recordFailure now => breaker.recordFailure now

/-- The state a sequence of calls leaves behind. -/
def afterAll (breaker : SimpleCircuitBreaker) (calls : List BreakerCall) :
    SimpleCircuitBreaker :=
  calls.foldl after breaker

/-- No call changes the settings of the breaker. -/
theorem settings_after (breaker : SimpleCircuitBreaker) (call : BreakerCall) :
    (breaker.after call).failureThreshold = breaker.failureThreshold ∧
      (breaker.after call).resetAfterSeconds = breaker.resetAfterSeconds := by
  cases call with
  | allow now =>
      simp only [after, allow]
      split_ifs <;> exact ⟨rfl, rfl⟩
  | recordSuccess => exact ⟨rfl, rfl⟩
  | recordFailure now =>
      simp only [after, recordFailure]
      split_ifs <;> exact ⟨rfl, rfl⟩

theorem settings_afterAll (breaker : SimpleCircuitBreaker)
    (calls : List BreakerCall) :
    (breaker.afterAll calls).failureThreshold = breaker.failureThreshold ∧
      (breaker.afterAll calls).resetAfterSeconds = breaker.resetAfterSeconds := by
  induction calls generalizing breaker with
  | nil => exact ⟨rfl, rfl⟩
  | cons call calls ih =>
      have hcall := breaker.settings_after call
      have hrest := ih (breaker.after call)
      exact ⟨hrest.1.trans hcall.1, hrest.2.trans hcall.2⟩

end SimpleCircuitBreaker

/-! ### The history of a breaker -/

section History

variable (threshold : ℕ) (reset : ℚ)

/-- The circuit is open: at least the threshold of failures have been recorded,
the times of which are given with the latest first. -/
def IsOpen (failures : List ℚ) : Prop :=
  threshold ≤ failures.length

/-- Less than the reset time has passed since the latest failure. -/
def IsRecent (failures : List ℚ) (now : ℚ) : Prop :=
  ∃ latest ∈ failures.head?, now - latest < reset

instance (failures : List ℚ) : Decidable (IsOpen threshold failures) :=
  inferInstanceAs (Decidable (threshold ≤ failures.length))

instance (failures : List ℚ) (now : ℚ) : Decidable (IsRecent reset failures now) :=
  match failures with
  | [] => .isFalse fun ⟨_, h, _⟩ => nomatch h
  | latest :: _ => decidable_of_iff (now - latest < reset) (by simp [IsRecent])

/-- The times of the failures recorded since the last closing event, the latest
first, after a call.  A success closes the circuit, and so does an `allow` that
finds it open with the reset time passed. -/
def failuresAfter (failures : List ℚ) : BreakerCall → List ℚ
  | .allow now =>
      if IsOpen threshold failures ∧ ¬IsRecent reset failures now then []
      else failures
  | .recordSuccess => []
  | .recordFailure now => now :: failures

/-- The times of the failures recorded since the last closing event of a
sequence of calls, the latest first. -/
def failuresSinceClosing (calls : List BreakerCall) : List ℚ :=
  calls.foldl (failuresAfter threshold reset) []

end History

/-! ### The state of a breaker and its history -/

/-- The two fields of a breaker against the failures recorded since the last
closing event. -/
structure Tracks (breaker : SimpleCircuitBreaker) (failures : List ℚ) : Prop where
  count : breaker.failures = failures.length
  opened : IsOpen breaker.failureThreshold failures →
    failures.head? = some breaker.openedAt

namespace Tracks

variable {breaker : SimpleCircuitBreaker} {failures : List ℚ}

/-- A closed breaker has no failures behind it. -/
theorem closed (hpos : 1 ≤ breaker.failureThreshold)
    (hfailures : breaker.failures = 0) : Tracks breaker [] where
  count := by simp [hfailures]
  opened hopen := by
    have hle : breaker.failureThreshold ≤ 0 := hopen
    omega

theorem failures_lt_iff (h : Tracks breaker failures) :
    breaker.failures < breaker.failureThreshold ↔
      ¬IsOpen breaker.failureThreshold failures := by
  rw [h.count, IsOpen, not_le]

/-- In an open circuit the stored time is the one of the latest failure. -/
theorem isRecent_iff (h : Tracks breaker failures)
    (hopen : IsOpen breaker.failureThreshold failures) (now : ℚ) :
    IsRecent breaker.resetAfterSeconds failures now ↔
      now - breaker.openedAt < breaker.resetAfterSeconds := by
  simp [IsRecent, h.opened hopen]

/-- `allow` answers by the history, and resets the circuit by it. -/
theorem allow_eq (h : Tracks breaker failures) (now : ℚ) :
    breaker.allow now =
      if IsOpen breaker.failureThreshold failures then
        if IsRecent breaker.resetAfterSeconds failures now then (false, breaker)
        else (true, { breaker with failures := 0, openedAt := 0 })
      else (true, breaker) := by
  by_cases hopen : IsOpen breaker.failureThreshold failures
  · have hfailures : ¬breaker.failures < breaker.failureThreshold := by
      rw [h.failures_lt_iff]
      exact not_not_intro hopen
    by_cases hrecent : IsRecent breaker.resetAfterSeconds failures now
    · have hnow := (h.isRecent_iff hopen now).mp hrecent
      rw [SimpleCircuitBreaker.allow, if_neg hfailures, if_neg (not_le.mpr hnow),
        if_pos hopen, if_pos hrecent]
    · have hnow := not_lt.mp ((h.isRecent_iff hopen now).not.mp hrecent)
      rw [SimpleCircuitBreaker.allow, if_neg hfailures, if_pos hnow,
        if_pos hopen, if_neg hrecent]
  · rw [SimpleCircuitBreaker.allow, if_pos (h.failures_lt_iff.mpr hopen),
      if_neg hopen]

/-- A failure opens the circuit, or moves its opening time, once the threshold
is reached. -/
theorem recordFailure (h : Tracks breaker failures) (now : ℚ) :
    Tracks (breaker.recordFailure now) (now :: failures) := by
  simp only [SimpleCircuitBreaker.recordFailure]
  split_ifs with hge
  · exact ⟨by simp [h.count], fun _ => rfl⟩
  · refine ⟨by simp [h.count], fun hopen => ?_⟩
    have hle : breaker.failureThreshold ≤ (now :: failures).length := hopen
    rw [List.length_cons, ← h.count] at hle
    exact absurd hle hge

/-- A call takes the failures since the last closing event along. -/
theorem after (hpos : 1 ≤ breaker.failureThreshold) (h : Tracks breaker failures)
    (call : BreakerCall) :
    Tracks (breaker.after call)
      (failuresAfter breaker.failureThreshold breaker.resetAfterSeconds failures
        call) := by
  cases call with
  | allow now =>
      rw [SimpleCircuitBreaker.after, h.allow_eq, failuresAfter]
      by_cases hopen : IsOpen breaker.failureThreshold failures
      · by_cases hrecent : IsRecent breaker.resetAfterSeconds failures now
        · simpa only [hopen, hrecent, if_true, not_true, and_false, if_false] using h
        · simp only [hopen, hrecent, if_true, not_false_iff, and_self, if_false]
          exact closed hpos rfl
      · simpa only [hopen, false_and, if_false] using h
  | recordSuccess => exact closed hpos rfl
  | recordFailure now => exact h.recordFailure now

/-- So does any sequence of calls. -/
theorem afterAll (hpos : 1 ≤ breaker.failureThreshold)
    (h : Tracks breaker failures) (calls : List BreakerCall) :
    Tracks (breaker.afterAll calls)
      (calls.foldl
        (failuresAfter breaker.failureThreshold breaker.resetAfterSeconds)
        failures) := by
  induction calls generalizing breaker failures with
  | nil => exact h
  | cons call calls ih =>
      have hsettings := breaker.settings_after call
      have hrest := ih (by rwa [hsettings.1]) (h.after hpos call)
      rwa [hsettings.1, hsettings.2] at hrest

end Tracks

/-- `allow` refuses exactly when at least the threshold of failures have been
recorded since the last closing event, the latest of them less than the reset
time ago: after any sequence of calls on a new breaker. -/
theorem allow_eq_false_iff {threshold : ℕ} (hpos : 1 ≤ threshold) (reset : ℚ)
    (calls : List BreakerCall) (now : ℚ) :
    ((SimpleCircuitBreaker.afterAll
        { failureThreshold := threshold, resetAfterSeconds := reset }
        calls).allow now).1 = false ↔
      IsOpen threshold (failuresSinceClosing threshold reset calls) ∧
        IsRecent reset (failuresSinceClosing threshold reset calls) now := by
  let start : SimpleCircuitBreaker :=
    { failureThreshold := threshold, resetAfterSeconds := reset }
  have hstart : Tracks start [] := Tracks.closed hpos rfl
  have htracks := hstart.afterAll hpos calls
  have hsettings := start.settings_afterAll calls
  have hallow := htracks.allow_eq now
  rw [hsettings.1, hsettings.2] at hallow
  rw [show SimpleCircuitBreaker.afterAll _ calls = start.afterAll calls from rfl,
    hallow, failuresSinceClosing]
  split_ifs with hopen hrecent
  · exact iff_of_true rfl ⟨hopen, hrecent⟩
  · exact iff_of_false (by simp) fun h => hrecent h.2
  · exact iff_of_false (by simp) fun h => hopen h.1

/-- Two overlapping requests fail: the second failure moves the opening time. -/
theorem allow_overlapping :
    ((SimpleCircuitBreaker.afterAll
        { failureThreshold := 1, resetAfterSeconds := 20 }
        [.allow 0, .allow 1, .recordFailure 2, .recordFailure 5]).allow 24).1 =
      false :=
  (allow_eq_false_iff (le_refl 1) 20
    [.allow 0, .allow 1, .recordFailure 2, .recordFailure 5] 24).mpr
    (by decide +kernel)

end AliceSkill
