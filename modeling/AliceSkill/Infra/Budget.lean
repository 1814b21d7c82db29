import Mathlib.Algebra.Order.Ring.Rat
import Mathlib.Tactic.Linarith
import Mathlib.Tactic.NormNum
import AliceSkill.Domain.Ports

/-!
# The retry budget of the OpenAI adapter

`_create_response_with_budget` of `openai_adapter.py`, with the part of the
retry library it runs in.  Leaving the block of an attempt with an exception
does not raise it: the library keeps the exception and decides at the next
iteration.  The clock stands still except in the requests and the waits.  What
the requests ask for is the same for all attempts and left out.
-/

namespace AliceSkill

def minRetryBudgetSeconds : ℚ := 3 / 20

def retryWaitSeconds : ℚ := 1 / 20

variable {ρ : Type}

/-- A request to the model without a timeout: how long it takes, and how it
ends. -/
structure Attempt (ρ : Type) where
  duration : ℚ
  outcome : Except PyException ρ
  nonneg : 0 ≤ duration

def timeoutError : PyException := ⟨.timeoutError, none⟩

/-- `asyncio.wait_for`: how a request ends, and how long that takes. -/
def waitFor (attempt : Attempt ρ) (timeout : ℚ) : Except PyException ρ × ℚ :=
  if attempt.duration ≤ timeout then (attempt.outcome, attempt.duration)
  else (.error timeoutError, timeout)

/-- How control leaves a statement. -/
inductive Flow (ρ : Type) where
  | returned (response : ρ)
  | raised (exc : PyException)
  | passed

/-- `with attempt`: an exception of the block is kept for the library, and does
not leave the statement. -/
def withAttempt : Except PyException ρ → Flow ρ × Option PyException
  | .ok response => (.returned response, none)
  | .error exc => (.passed, some exc)

/-- A request that has been made. -/
structure MadeRequest (ρ : Type) where
  startedAt : ℚ
  timeout : ℚ
  endedAt : ℚ
  ending : Except PyException ρ

/-- The body of the loop after its first check: the request it has made, how
control leaves it, what the library has kept, and `last_error`. -/
structure Iteration (ρ : Type) where
  request : MadeRequest ρ
  flow : Flow ρ
  kept : Option PyException
  lastError : Option PyException

/-- The `try` statement in the loop. -/
def tryRequest (deadlineAt now : ℚ) (attempt : Attempt ρ)
    (lastError : Option PyException) : Iteration ρ :=
  let remaining := deadlineAt - now
  let (ending, elapsed) := waitFor attempt remaining
  let request := ⟨now, remaining, now + elapsed, ending⟩
  let (flow, kept) := withAttempt ending
  match flow with
  | .raised exc =>
      if exc.kind = .timeoutError then
        let remaining := deadlineAt - request.endedAt
        if remaining ≤ minRetryBudgetSeconds + retryWaitSeconds then
          ⟨request, .raised exc, kept, some exc⟩
        else ⟨request, .passed, kept, some exc⟩
      else ⟨request, .raised exc, kept, lastError⟩
  | flow => ⟨request, flow, kept, lastError⟩

/-- The requests a call has made, and how and when it has finished. -/
structure BudgetRun (ρ : Type) where
  requests : List (MadeRequest ρ)
  result : Except PyException ρ
  finishedAt : ℚ

/-- A run with one more request before it. -/
def BudgetRun.after (run : BudgetRun ρ) (request : MadeRequest ρ) : BudgetRun ρ :=
  { run with requests := request :: run.requests }

/-- A run that ends with a request. -/
def Iteration.finish (iteration : Iteration ρ) (result : Except PyException ρ) :
    BudgetRun ρ :=
  ⟨[iteration.request], result, iteration.request.endedAt⟩

/-- The loop, when so many retries are left.  The library raises what it has
kept unless it is a timeout and a retry is left, and else waits. -/
def createWithin (deadlineAt : ℚ) (retries : ℕ) (attempts : ℕ → Attempt ρ)
    (now : ℚ) (lastError : Option PyException) : BudgetRun ρ :=
  let remaining := deadlineAt - now
  if remaining ≤ minRetryBudgetSeconds then ⟨[], .error timeoutError, now⟩
  else
    let iteration := tryRequest deadlineAt now (attempts 0) lastError
    match iteration.flow with
    | .returned response => iteration.finish (.ok response)
    | .raised exc => iteration.finish (.error exc)
    | .passed =>
        match iteration.kept with
        | none => iteration.finish (.error (iteration.lastError.getD timeoutError))
        | some exc =>
            if exc.kind ≠ .timeoutError then iteration.finish (.error exc)
            else
              match retries with
              | 0 => iteration.finish (.error exc)
              | retries + 1 =>
                  (createWithin deadlineAt retries (fun k => attempts (k + 1))
                    (iteration.request.endedAt + retryWaitSeconds)
                    iteration.lastError).after iteration.request

/-- `_create_response_with_budget`, called at a time. -/
def createResponseWithBudget (maxRetries : ℕ) (deadlineSeconds : ℚ)
    (attempts : ℕ → Attempt ρ) (now : ℚ) : BudgetRun ρ :=
  createWithin (now + deadlineSeconds) maxRetries attempts now none

/-! ### What the budget is for -/

/-- A request or a call ends with a timeout. -/
def TimedOut (outcome : Except PyException ρ) : Prop :=
  ∃ exc, outcome = .error exc ∧ exc.kind = .timeoutError

/-- The strict budget of a call that has to be done at `deadlineAt`. -/
structure StrictBudget (maxRetries : ℕ) (deadlineAt : ℚ) (run : BudgetRun ρ) :
    Prop where
  few : run.requests.length ≤ maxRetries + 1
  funded : ∀ request ∈ run.requests,
    minRetryBudgetSeconds < deadlineAt - request.startedAt ∧
      request.timeout = deadlineAt - request.startedAt
  prompt : ∀ request ∈ run.requests, TimedOut request.ending →
    deadlineAt - request.endedAt ≤ minRetryBudgetSeconds + retryWaitSeconds →
    TimedOut run.result ∧ run.finishedAt = request.endedAt
  within : run.finishedAt ≤ deadlineAt

/-- The budget an attempt starts with, when all attempts before it have timed
out on their own. -/
def budgetBefore (attempts : ℕ → Attempt ρ) (deadlineSeconds : ℚ) : ℕ → ℚ
  | 0 => deadlineSeconds
  | k + 1 =>
      budgetBefore attempts deadlineSeconds k - (attempts k).duration -
        retryWaitSeconds

/-- An attempt that is not the last one times out and leaves no budget for
another one. -/
def TimesOutLate (maxRetries : ℕ) (deadlineSeconds : ℚ)
    (attempts : ℕ → Attempt ρ) : Prop :=
  minRetryBudgetSeconds < deadlineSeconds ∧ ∃ k < maxRetries,
    (∀ i ≤ k,
      TimedOut (waitFor (attempts i) (budgetBefore attempts deadlineSeconds i)).1) ∧
    (∀ i < k, minRetryBudgetSeconds + retryWaitSeconds <
      budgetBefore attempts deadlineSeconds i - (attempts i).duration) ∧
    budgetBefore attempts deadlineSeconds k - (attempts k).duration ≤
      minRetryBudgetSeconds + retryWaitSeconds

/-! ### Requests -/

section Requests

variable (attempt : Attempt ρ) (timeout : ℚ)

theorem elapsed_waitFor : (waitFor attempt timeout).2 = min attempt.duration timeout := by
  rw [waitFor]
  split_ifs with h
  · exact (min_eq_left h).symm
  · exact (min_eq_right (not_le.mp h).le).symm

/-- The request of an attempt made at `now`. -/
def requestAt (deadlineAt now : ℚ) (attempt : Attempt ρ) : MadeRequest ρ where
  startedAt := now
  timeout := deadlineAt - now
  endedAt := now + (waitFor attempt (deadlineAt - now)).2
  ending := (waitFor attempt (deadlineAt - now)).1

/-- No exception reaches the handler of the `try` statement. -/
theorem tryRequest_eq (deadlineAt now : ℚ) (lastError : Option PyException) :
    tryRequest deadlineAt now attempt lastError =
      ⟨requestAt deadlineAt now attempt,
        (withAttempt (waitFor attempt (deadlineAt - now)).1).1,
        (withAttempt (waitFor attempt (deadlineAt - now)).1).2, lastError⟩ := by
  cases hending : (waitFor attempt (deadlineAt - now)).1 with
  | ok response => simp [tryRequest, hending, withAttempt, requestAt]
  | error exc => simp [tryRequest, hending, withAttempt, requestAt]

end Requests

/-- What a request leaves of the budget. -/
theorem left_requestAt (deadlineAt now : ℚ) (attempt : Attempt ρ) :
    deadlineAt - (requestAt deadlineAt now attempt).endedAt =
      deadlineAt - now - min attempt.duration (deadlineAt - now) := by
  rw [requestAt, elapsed_waitFor]
  exact sub_add_eq_sub_sub _ _ _

theorem left_nonneg (deadlineAt now : ℚ) (attempt : Attempt ρ) :
    (requestAt deadlineAt now attempt).endedAt ≤ deadlineAt := by
  have hleft := left_requestAt deadlineAt now attempt
  have hmin := min_le_right attempt.duration (deadlineAt - now)
  linarith

/-- When a request leaves enough, it has not been cut off. -/
theorem left_of_lt {deadlineAt now : ℚ} {attempt : Attempt ρ}
    (h : minRetryBudgetSeconds + retryWaitSeconds <
      deadlineAt - (requestAt deadlineAt now attempt).endedAt) :
    deadlineAt - (requestAt deadlineAt now attempt).endedAt =
      deadlineAt - now - attempt.duration := by
  rw [left_requestAt] at h ⊢
  rw [min_eq_left]
  by_contra hlt
  rw [min_eq_right (not_le.mp hlt).le, sub_self, minRetryBudgetSeconds,
    retryWaitSeconds] at h
  norm_num at h

/-! ### The loop -/

section Loop

variable {deadlineAt now : ℚ} {attempts : ℕ → Attempt ρ}

theorem createWithin_short (h : deadlineAt - now ≤ minRetryBudgetSeconds)
    (retries : ℕ) (lastError : Option PyException) :
    createWithin deadlineAt retries attempts now lastError =
      ⟨[], .error timeoutError, now⟩ := by
  rw [createWithin.eq_def]
  exact if_pos h

/-- The loop ends with its request unless that times out and a retry is left. -/
theorem createWithin_settled (h : minRetryBudgetSeconds < deadlineAt - now)
    {retries : ℕ}
    (hend : TimedOut (requestAt deadlineAt now (attempts 0)).ending → retries = 0)
    (lastError : Option PyException) :
    createWithin deadlineAt retries attempts now lastError =
      ⟨[requestAt deadlineAt now (attempts 0)],
        (requestAt deadlineAt now (attempts 0)).ending,
        (requestAt deadlineAt now (attempts 0)).endedAt⟩ := by
  rw [createWithin.eq_def]
  simp only [if_neg (not_le.mpr h), tryRequest_eq, Iteration.finish]
  change TimedOut (waitFor (attempts 0) (deadlineAt - now)).1 → retries = 0 at hend
  cases hending : (waitFor (attempts 0) (deadlineAt - now)).1 with
  | ok response => simp [withAttempt, requestAt, hending]
  | error exc =>
      by_cases hkind : exc.kind = .timeoutError
      · cases hend ⟨exc, hending, hkind⟩
        simp [withAttempt, requestAt, hending, hkind]
      · simp [withAttempt, requestAt, hending, hkind]

/-- After a timeout the library waits, whatever the budget, and goes on. -/
theorem createWithin_retry (h : minRetryBudgetSeconds < deadlineAt - now)
    (hend : TimedOut (requestAt deadlineAt now (attempts 0)).ending)
    (retries : ℕ) (lastError : Option PyException) :
    createWithin deadlineAt (retries + 1) attempts now lastError =
      (createWithin deadlineAt retries (fun k => attempts (k + 1))
        ((requestAt deadlineAt now (attempts 0)).endedAt + retryWaitSeconds)
        lastError).after (requestAt deadlineAt now (attempts 0)) := by
  obtain ⟨exc, hending, hkind⟩ := hend
  change (waitFor (attempts 0) (deadlineAt - now)).1 = .error exc at hending
  rw [createWithin.eq_def]
  simp only [if_neg (not_le.mpr h), tryRequest_eq, hending, withAttempt, hkind,
    ne_eq, not_true, if_false]

end Loop

/-! ### The condition -/

theorem budgetBefore_succ (attempts : ℕ → Attempt ρ) (deadlineSeconds : ℚ) (k : ℕ) :
    budgetBefore attempts deadlineSeconds (k + 1) =
      budgetBefore (fun i => attempts (i + 1))
        (deadlineSeconds - (attempts 0).duration - retryWaitSeconds) k := by
  induction k with
  | zero => rfl
  | succ k ih => rw [budgetBefore, ih, budgetBefore]

/-- The condition needs a first attempt that times out, and a retry. -/
theorem TimesOutLate.first {retries : ℕ} {deadlineSeconds : ℚ}
    {attempts : ℕ → Attempt ρ} (h : TimesOutLate retries deadlineSeconds attempts) :
    minRetryBudgetSeconds < deadlineSeconds ∧ retries ≠ 0 ∧
      TimedOut (waitFor (attempts 0) deadlineSeconds).1 := by
  obtain ⟨hbudget, k, hk, htimes, _⟩ := h
  exact ⟨hbudget, Nat.ne_zero_of_lt hk, htimes 0 (Nat.zero_le k)⟩

/-- A first attempt that times out and leaves too little meets the condition. -/
theorem timesOutLate_of_first {deadlineAt now : ℚ} {attempts : ℕ → Attempt ρ}
    (hbudget : minRetryBudgetSeconds < deadlineAt - now)
    (htimed : TimedOut (requestAt deadlineAt now (attempts 0)).ending)
    (hleft : deadlineAt - (requestAt deadlineAt now (attempts 0)).endedAt ≤
      minRetryBudgetSeconds + retryWaitSeconds) (retries : ℕ) :
    TimesOutLate (retries + 1) (deadlineAt - now) attempts := by
  refine ⟨hbudget, 0, Nat.succ_pos retries, fun i hi => ?_, fun i hi => ?_, ?_⟩
  · cases Nat.le_zero.mp hi
    exact htimed
  · exact absurd hi (Nat.not_lt_zero i)
  · rw [left_requestAt] at hleft
    have hmin := min_le_left (attempts 0).duration (deadlineAt - now)
    rw [budgetBefore]
    linarith

/-- A first attempt that times out with enough budget left takes the condition to
the attempts after it. -/
theorem timesOutLate_succ_iff {attempts : ℕ → Attempt ρ} {deadlineSeconds : ℚ}
    (htimed : TimedOut (waitFor (attempts 0) deadlineSeconds).1)
    (hleft : minRetryBudgetSeconds + retryWaitSeconds <
      deadlineSeconds - (attempts 0).duration) (retries : ℕ) :
    TimesOutLate (retries + 1) deadlineSeconds attempts ↔
      TimesOutLate retries (deadlineSeconds - (attempts 0).duration - retryWaitSeconds)
        fun k => attempts (k + 1) := by
  have hnonneg := (attempts 0).nonneg
  constructor
  · intro ⟨_, k, hk, htimes, hearly, hlate⟩
    refine ⟨by linarith, ?_⟩
    cases k with
    | zero => exact absurd hlate (not_le.mpr hleft)
    | succ k =>
        refine ⟨k, Nat.lt_of_succ_lt_succ hk, fun i hi => ?_, fun i hi => ?_, ?_⟩
        · have htimes' := htimes (i + 1) (Nat.succ_le_succ hi)
          rwa [budgetBefore_succ] at htimes'
        · have hearly' := hearly (i + 1) (Nat.succ_lt_succ hi)
          rwa [budgetBefore_succ] at hearly'
        · rwa [budgetBefore_succ] at hlate
  · intro ⟨_, k, hk, htimes, hearly, hlate⟩
    refine ⟨?_, k + 1, Nat.succ_lt_succ hk, fun i hi => ?_, fun i hi => ?_, ?_⟩
    · rw [minRetryBudgetSeconds, retryWaitSeconds] at *
      linarith
    · cases i with
      | zero => exact htimed
      | succ i =>
          rw [budgetBefore_succ]
          exact htimes i (Nat.le_of_succ_le_succ hi)
    · cases i with
      | zero => exact hleft
      | succ i =>
          rw [budgetBefore_succ]
          exact hearly i (Nat.lt_of_succ_lt_succ hi)
    · rwa [budgetBefore_succ]

/-! ### The strict budget -/

section Strict

variable {deadlineAt now : ℚ} {attempts : ℕ → Attempt ρ}

/-- A call without budget makes no request. -/
theorem strictBudget_short (hnow : now ≤ deadlineAt) (retries : ℕ) :
    StrictBudget retries deadlineAt
      (⟨[], .error timeoutError, now⟩ : BudgetRun ρ) where
  few := Nat.zero_le _
  funded := by simp
  prompt := by simp
  within := hnow

theorem strictBudget_settled (h : minRetryBudgetSeconds < deadlineAt - now)
    (retries : ℕ) (attempt : Attempt ρ) :
    StrictBudget retries deadlineAt
      ⟨[requestAt deadlineAt now attempt], (requestAt deadlineAt now attempt).ending,
        (requestAt deadlineAt now attempt).endedAt⟩ where
  few := Nat.succ_le_succ (Nat.zero_le retries)
  funded := by
    intro request hrequest
    rw [List.mem_singleton.mp hrequest]
    exact ⟨h, rfl⟩
  prompt := by
    intro request hrequest htimed _
    rw [List.mem_singleton.mp hrequest] at htimed ⊢
    exact ⟨htimed, rfl⟩
  within := left_nonneg deadlineAt now attempt

/-- A request that leaves enough of the budget does not matter for what
follows. -/
theorem strictBudget_after_iff (h : minRetryBudgetSeconds < deadlineAt - now)
    {attempt : Attempt ρ}
    (hleft : minRetryBudgetSeconds + retryWaitSeconds <
      deadlineAt - (requestAt deadlineAt now attempt).endedAt)
    (retries : ℕ) (run : BudgetRun ρ) :
    StrictBudget (retries + 1) deadlineAt
        (run.after (requestAt deadlineAt now attempt)) ↔
      StrictBudget retries deadlineAt run := by
  constructor
  · intro hstrict
    refine ⟨Nat.le_of_succ_le_succ hstrict.few, fun request hrequest => ?_,
      fun request hrequest => ?_, hstrict.within⟩
    · exact hstrict.funded request (List.mem_cons_of_mem _ hrequest)
    · exact hstrict.prompt request (List.mem_cons_of_mem _ hrequest)
  · intro hstrict
    refine ⟨Nat.succ_le_succ hstrict.few, fun request hrequest => ?_,
      fun request hrequest => ?_, hstrict.within⟩
    · rcases List.mem_cons.mp hrequest with rfl | hrequest
      · exact ⟨h, rfl⟩
      · exact hstrict.funded request hrequest
    · rcases List.mem_cons.mp hrequest with rfl | hrequest
      · intro _ hlate
        exact absurd hlate (not_le.mpr hleft)
      · exact hstrict.prompt request hrequest

/-- A wait after a request that has left too little breaks the budget. -/
theorem not_strictBudget_late {attempt : Attempt ρ}
    (htimed : TimedOut (requestAt deadlineAt now attempt).ending)
    (hleft : deadlineAt - (requestAt deadlineAt now attempt).endedAt ≤
      minRetryBudgetSeconds + retryWaitSeconds)
    (retries : ℕ) (run : BudgetRun ρ)
    (hrun : run.finishedAt =
      (requestAt deadlineAt now attempt).endedAt + retryWaitSeconds) :
    ¬StrictBudget retries deadlineAt
      (run.after (requestAt deadlineAt now attempt)) := by
  intro hstrict
  have hprompt := hstrict.prompt _ List.mem_cons_self htimed hleft
  have hfinished : run.finishedAt = (requestAt deadlineAt now attempt).endedAt :=
    hprompt.2
  rw [hrun, retryWaitSeconds] at hfinished
  linarith

/-- A loop that makes no retry keeps to the budget. -/
theorem strictBudget_createWithin (hnow : now ≤ deadlineAt) {retries : ℕ}
    (hend : minRetryBudgetSeconds < deadlineAt - now →
      TimedOut (requestAt deadlineAt now (attempts 0)).ending → retries = 0)
    (lastError : Option PyException) :
    StrictBudget retries deadlineAt
        (createWithin deadlineAt retries attempts now lastError) := by
  by_cases hbudget : minRetryBudgetSeconds < deadlineAt - now
  · rw [createWithin_settled hbudget (hend hbudget)]
    exact strictBudget_settled hbudget retries (attempts 0)
  · rw [createWithin_short (not_lt.mp hbudget)]
    exact strictBudget_short hnow retries

theorem strictBudget_createWithin_iff (hnow : now ≤ deadlineAt) (retries : ℕ)
    (lastError : Option PyException) :
    StrictBudget retries deadlineAt
        (createWithin deadlineAt retries attempts now lastError) ↔
      ¬TimesOutLate retries (deadlineAt - now) attempts := by
  induction retries generalizing now attempts with
  | zero =>
      apply iff_of_true
      · exact strictBudget_createWithin hnow (fun _ _ => rfl) lastError
      · exact fun hlate => hlate.first.2.1 rfl
  | succ retries ih =>
      by_cases hretry : minRetryBudgetSeconds < deadlineAt - now ∧
          TimedOut (requestAt deadlineAt now (attempts 0)).ending
      · obtain ⟨hbudget, htimed⟩ := hretry
        rw [createWithin_retry hbudget htimed]
        by_cases hleft : minRetryBudgetSeconds + retryWaitSeconds <
            deadlineAt - (requestAt deadlineAt now (attempts 0)).endedAt
        · -- The next attempt starts with enough budget.
          have hdone : (requestAt deadlineAt now (attempts 0)).endedAt +
              retryWaitSeconds ≤ deadlineAt := by
            rw [minRetryBudgetSeconds] at hleft
            linarith
          have hrest := left_of_lt hleft
          rw [strictBudget_after_iff hbudget hleft, ih hdone,
            timesOutLate_succ_iff htimed (hrest ▸ hleft), sub_add_eq_sub_sub, hrest]
        · -- The wait uses up what the next attempt would need.
          apply iff_of_false
          · apply not_strictBudget_late htimed (not_lt.mp hleft)
            rw [createWithin_short]
            rw [retryWaitSeconds, minRetryBudgetSeconds] at *
            linarith
          · apply not_not_intro
            exact timesOutLate_of_first hbudget htimed (not_lt.mp hleft) retries
      · apply iff_of_true
        · apply strictBudget_createWithin hnow
          intro hbudget htimed
          exact absurd ⟨hbudget, htimed⟩ hretry
        · exact fun hlate => hretry ⟨hlate.first.1, hlate.first.2.2⟩

end Strict

/-- The budget is kept exactly when it is not negative to begin with, and no
attempt but the last allowed one times out leaving too little for another. -/
theorem strictBudget_iff (maxRetries : ℕ) (deadlineSeconds : ℚ)
    (attempts : ℕ → Attempt ρ) (now : ℚ) :
    StrictBudget maxRetries (now + deadlineSeconds)
        (createResponseWithBudget maxRetries deadlineSeconds attempts now) ↔
      0 ≤ deadlineSeconds ∧ ¬TimesOutLate maxRetries deadlineSeconds attempts := by
  rw [createResponseWithBudget]
  by_cases hnonneg : 0 ≤ deadlineSeconds
  · have hnow : now ≤ now + deadlineSeconds := le_add_of_nonneg_right hnonneg
    rw [strictBudget_createWithin_iff hnow, add_sub_cancel_left]
    exact (and_iff_right hnonneg).symm
  · apply iff_of_false
    · intro hstrict
      have hshort : now + deadlineSeconds - now ≤ minRetryBudgetSeconds := by
        rw [minRetryBudgetSeconds]
        linarith
      have hwithin := hstrict.within
      rw [createWithin_short hshort] at hwithin
      change now ≤ now + deadlineSeconds at hwithin
      linarith
    · exact fun h => hnonneg h.1

/-- A model that does not answer for ten seconds. -/
def unanswered : Attempt Unit := ⟨10, .ok (), by norm_num⟩

/-- With the default settings a model that does not answer makes the call end
a wait after its deadline. -/
theorem not_strictBudget_unanswered :
    ¬StrictBudget 1 (11 / 5)
      (createResponseWithBudget 1 (11 / 5) (fun _ => unanswered) 0) := by
  intro hstrict
  have hlate : ¬(createResponseWithBudget 1 (11 / 5)
      (fun _ => unanswered) 0).finishedAt ≤ 11 / 5 := by
    decide +kernel
  exact hlate hstrict.within

end AliceSkill
