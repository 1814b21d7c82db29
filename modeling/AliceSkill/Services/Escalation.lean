import AliceSkill.Effects.Sequential
import AliceSkill.Services.Conversation

/-!
# Rounds of the deferred generation

The deferred generation asks the model again with a larger output budget as long
as the answer does not fit, and all rounds share one deadline.  A generation is
run against the readings of a clock and the outcomes of the requests to the
model, one for each request; what it has asked is kept.
-/

namespace AliceSkill

open Text Effects Program ConversationService

/-- How often the clock has been read, and the requests made to the model. -/
structure GenerationTrace where
  readings : ℕ
  requests : List PortCall

/-- The clock and the model, by their successive readings and outcomes.  A
generation makes no other calls. -/
def scripted (clock : ℕ → ℚ) (outcomes : ℕ → Except PyException LLMReply) :
    Handler CallSig PyException GenerationTrace Unit
  | _, .port .monotonic, s =>
      (.ok (clock s.readings), { s with readings := s.readings + 1 })
  | _, .port (.generateReply userText history requestId deadlineSeconds budget), s =>
      (outcomes s.requests.length,
        { s with requests := s.requests ++
          [.generateReply userText history requestId deadlineSeconds budget] })
  | _, _, s => (.error ⟨.other, none⟩, s)

/-- The answer did not fit into the output budget. -/
def outgrown : Except PyException LLMReply → Prop
  | .ok _ => False
  | .error exc => exc.reason = some "max_output_tokens".toList

theorem exists_error_of_outgrown {outcome : Except PyException LLMReply}
    (h : outgrown outcome) : ∃ exc, outcome = .error exc := by
  cases outcome with
  | ok reply => exact h.elim
  | error exc => exact ⟨exc, rfl⟩

section Rounds

variable {clock : ℕ → ℚ} {outcomes : ℕ → Except PyException LLMReply}
variable {job : DeferredJob} {history : List ConversationTurn} {deadlineAt : ℚ}

/-- The rest of a generation, after `i` requests. -/
abbrev runWithin (clock : ℕ → ℚ) (outcomes : ℕ → Except PyException LLMReply)
    (job : DeferredJob) (history : List ConversationTurn) (deadlineAt : ℚ)
    (last : Option PyException) (steps : List ℕ) (s : GenerationTrace) :
    Except PyException LLMReply × GenerationTrace :=
  (generateWithin job history deadlineAt last steps).run (scripted clock outcomes)
    (fun _ _ => ()) s

/-- The error of a generation that makes no further request. -/
def leftOver : Option PyException → PyException
  | some exc => exc
  | none => ⟨.timeoutError, none⟩

/-- The request of a round. -/
def requestOfRound (job : DeferredJob) (history : List ConversationTurn)
    (remaining : ℚ) (budget : ℕ) : PortCall :=
  .generateReply job.userText history job.requestId remaining budget

theorem runWithin_nil (last : Option PyException) (s : GenerationTrace) :
    runWithin clock outcomes job history deadlineAt last [] s =
      (.error (leftOver last), s) := by
  cases last <;> rfl

theorem runWithin_late {steps : List ℕ} {s : GenerationTrace} (budget : ℕ)
    (h : deadlineAt - clock s.readings ≤ 0) (last : Option PyException) :
    (runWithin clock outcomes job history deadlineAt last (budget :: steps) s).1 =
        .error (leftOver last) ∧
      (runWithin clock outcomes job history deadlineAt last (budget :: steps) s).2.requests =
        s.requests := by
  unfold runWithin generateWithin
  simp only [bind_eq, Ports.monotonic, Ports.ask, perform, call_bind, run, scripted,
    ret_bind, h, if_true]
  cases last with
  | none => exact ⟨rfl, rfl⟩
  | some exc => exact ⟨rfl, rfl⟩

/-- The trace after a round. -/
def GenerationTrace.round (s : GenerationTrace) (request : PortCall) :
    GenerationTrace :=
  ⟨s.readings + 1, s.requests ++ [request]⟩

/-- A round: the generation ends with the outcome of the request, unless the
answer did not fit. -/
theorem runWithin_round {steps : List ℕ} {s : GenerationTrace} (budget : ℕ)
    (h : ¬deadlineAt - clock s.readings ≤ 0) (last : Option PyException) :
    runWithin clock outcomes job history deadlineAt last (budget :: steps) s =
      match outcomes s.requests.length with
      | .ok reply => (.ok reply, s.round
          (requestOfRound job history (deadlineAt - clock s.readings) budget))
      | .error exc =>
          if exc.reason ≠ some "max_output_tokens".toList then
            (.error exc, s.round
              (requestOfRound job history (deadlineAt - clock s.readings) budget))
          else
            runWithin clock outcomes job history deadlineAt (some exc) steps (s.round
              (requestOfRound job history (deadlineAt - clock s.readings) budget)) := by
  conv_lhs => unfold runWithin generateWithin
  simp only [bind_eq, Ports.monotonic, Ports.generateReply, Ports.ask, perform,
    attempt, call_bind, run, scripted, ret_bind, h, if_false]
  cases outcomes s.requests.length with
  | ok reply => rfl
  | error exc =>
      simp only [attempt, ret_bind]
      split_ifs
      · rfl
      · rfl

/-- What is known about the rest of a generation that makes `n` further
requests: which they are, when there is one more, and how it ends. -/
structure Escalates (clock : ℕ → ℚ) (outcomes : ℕ → Except PyException LLMReply)
    (job : DeferredJob) (history : List ConversationTurn) (deadlineAt : ℚ)
    (last : Option PyException) (steps : List ℕ) (s : GenerationTrace) (n : ℕ)
    (out : Except PyException LLMReply × GenerationTrace) : Prop where
  within : n ≤ steps.length
  asked : out.2.requests = s.requests ++ (steps.take n).mapIdx fun k budget =>
    requestOfRound job history (deadlineAt - clock (s.readings + k)) budget
  first : 0 < n ↔ 0 < steps.length ∧ 0 < deadlineAt - clock s.readings
  next : ∀ k, k + 1 < n ↔ k < n ∧ outgrown (outcomes (s.requests.length + k)) ∧
    k + 1 < steps.length ∧ 0 < deadlineAt - clock (s.readings + (k + 1))
  result : out.1 = if n = 0 then .error (leftOver last)
    else outcomes (s.requests.length + (n - 1))

variable {steps : List ℕ} {last : Option PyException} {s : GenerationTrace} {n : ℕ}
variable {out : Except PyException LLMReply × GenerationTrace}

/-- No further request is made. -/
theorem escalates_stop
    (h : ¬(0 < steps.length ∧ 0 < deadlineAt - clock s.readings))
    (hrequests : out.2.requests = s.requests) (hout : out.1 = .error (leftOver last)) :
    Escalates clock outcomes job history deadlineAt last steps s 0 out where
  within := Nat.zero_le _
  asked := by simpa using hrequests
  first := by simpa using h
  next := by simp
  result := hout

/-- The request is the last one, because the answer fits or the model fails. -/
theorem escalates_last {budget : ℕ} (htime : 0 < deadlineAt - clock s.readings)
    (hrequests : out.2 = s.round
      (requestOfRound job history (deadlineAt - clock s.readings) budget))
    (hends : ¬outgrown (outcomes s.requests.length))
    (hout : out.1 = outcomes s.requests.length) :
    Escalates clock outcomes job history deadlineAt last (budget :: steps) s 1 out where
  within := by simp
  asked := by
    rw [hrequests]
    simp [GenerationTrace.round]
  first := by simp [htime]
  next := by
    intro k
    constructor
    · intro h
      omega
    · rintro ⟨hk, hfails, -⟩
      obtain rfl : k = 0 := Nat.lt_one_iff.mp hk
      exact absurd hfails hends
  result := hout

/-- The answer does not fit, and the generation goes on. -/
theorem escalates_round {budget : ℕ} {exc : PyException}
    (htime : 0 < deadlineAt - clock s.readings)
    (hfails : outcomes s.requests.length = .error exc)
    (hreason : exc.reason = some "max_output_tokens".toList)
    (h : Escalates clock outcomes job history deadlineAt (some exc) steps
      (s.round (requestOfRound job history (deadlineAt - clock s.readings) budget))
      n out) :
    Escalates clock outcomes job history deadlineAt last (budget :: steps) s (n + 1)
      out where
  within := Nat.succ_le_succ h.within
  asked := by
    have hshift : ∀ k, s.readings + 1 + k = s.readings + (k + 1) := fun k => by omega
    rw [h.asked]
    simp [GenerationTrace.round, hshift]
  first := by simp [htime]
  next := by
    intro k
    have hoverflow : outgrown (outcomes s.requests.length) := by
      rw [hfails]
      exact hreason
    have hlength : (s.round (requestOfRound job history
        (deadlineAt - clock s.readings) budget)).requests.length =
          s.requests.length + 1 := by
      simp [GenerationTrace.round]
    cases k with
    | zero =>
        rw [Nat.succ_lt_succ_iff, h.first, List.length_cons]
        simp [hoverflow, GenerationTrace.round]
    | succ k =>
        have hnext := h.next k
        have hindex : s.requests.length + 1 + k = s.requests.length + (k + 1) := by
          omega
        have hreading : s.readings + 1 + (k + 1) = s.readings + (k + 1 + 1) := by omega
        rw [hlength, hindex] at hnext
        rw [Nat.succ_lt_succ_iff, hnext, List.length_cons, Nat.succ_lt_succ_iff,
          Nat.succ_lt_succ_iff, ← hreading]
        rfl
  result := by
    rw [h.result, if_neg (Nat.succ_ne_zero n)]
    split_ifs with hn
    · rw [hn]
      exact hfails.symm
    · have hindex : s.requests.length + 1 + (n - 1) = s.requests.length + n := by omega
      rw [GenerationTrace.round, List.length_append, List.length_singleton, hindex]
      rfl

/-- The rest of a generation, whatever the model and the clock do. -/
theorem exists_escalates (steps : List ℕ) (last : Option PyException)
    (s : GenerationTrace) : ∃ n, Escalates clock outcomes job history deadlineAt last
      steps s n (runWithin clock outcomes job history deadlineAt last steps s) := by
  induction steps generalizing last s with
  | nil =>
      refine ⟨0, escalates_stop (by simp) ?_ ?_⟩
      · rw [runWithin_nil]
      · rw [runWithin_nil]
  | cons budget steps ih =>
      by_cases hlate : deadlineAt - clock s.readings ≤ 0
      · obtain ⟨hout, hrequests⟩ := @runWithin_late clock outcomes job history
          deadlineAt steps s budget hlate last
        exact ⟨0, escalates_stop (fun h => Rat.not_lt.mpr hlate h.2) hrequests hout⟩
      · have htime := Rat.not_le.mp hlate
        have hround := @runWithin_round clock outcomes job history deadlineAt steps s
          budget hlate last
        cases houtcome : outcomes s.requests.length with
        | ok reply =>
            rw [houtcome] at hround
            rw [hround]
            refine ⟨1, escalates_last htime rfl ?_ houtcome.symm⟩
            rw [houtcome]
            exact id
        | error exc =>
            rw [houtcome] at hround
            by_cases hreason : exc.reason = some "max_output_tokens".toList
            · obtain ⟨n, hn⟩ := ih (some exc) (s.round
                (requestOfRound job history (deadlineAt - clock s.readings) budget))
              have hgoes := hround.trans (if_neg (not_not.mpr hreason))
              rw [hgoes]
              exact ⟨n + 1, escalates_round htime houtcome hreason hn⟩
            · have hstops := hround.trans (if_pos hreason)
              rw [hstops]
              refine ⟨1, escalates_last htime rfl ?_ houtcome.symm⟩
              rw [houtcome]
              exact hreason

end Rounds

/-- The outcome of a generation, from the outcomes of its requests: the first
success, otherwise the last error, otherwise the time was over at once. -/
def verdict (made : List (Except PyException LLMReply)) :
    Except PyException LLMReply :=
  match made.find? fun outcome => outcome.toBool with
  | some success => success
  | none => made.getLast?.getD (.error ⟨.timeoutError, none⟩)

theorem verdict_of_failures {outcomes : ℕ → Except PyException LLMReply} {n : ℕ}
    (hfailures : ∀ k, k + 1 < n → ∃ exc, outcomes k = .error exc) :
    verdict ((List.range n).map outcomes) =
      if n = 0 then .error ⟨.timeoutError, none⟩ else outcomes (n - 1) := by
  cases n with
  | zero => rfl
  | succ n =>
      have hnone : (((List.range n).map outcomes).find? fun outcome =>
          outcome.toBool) = none := by
        rw [List.find?_eq_none]
        intro outcome hmem
        obtain ⟨k, hk, rfl⟩ := List.mem_map.mp hmem
        obtain ⟨exc, hexc⟩ :=
          hfailures k (Nat.succ_lt_succ (List.mem_range.mp hk))
        rw [hexc]
        exact Bool.false_ne_true
      rw [if_neg (Nat.succ_ne_zero n), verdict, List.range_succ, List.map_append,
        List.find?_append, hnone, List.map_singleton, Option.none_or,
        List.getLast?_append, List.getLast?_singleton, Nat.add_sub_cancel]
      cases outcomes n with
      | ok reply => rfl
      | error exc => rfl

/-- The deferred generation, against any outcomes and any readings of the clock:
the budgets are tried in order, one more exactly when the answer did not fit and
a budget and time are left, and all requests share one deadline. -/
theorem generateDeferredReply_escalates (clock : ℕ → ℚ)
    (outcomes : ℕ → Except PyException LLMReply) (job : DeferredJob)
    (history : List ConversationTurn) (deadlineSeconds : ℚ) :
    let deadlineAt := clock 0 + deadlineSeconds
    let out := (generateDeferredReply job history deadlineSeconds).run
      (scripted clock outcomes) (fun _ _ => ()) ⟨0, []⟩
    let n := out.2.requests.length
    n ≤ 4 ∧
      out.2.requests = ([256, 512, 1024, 2048].take n).mapIdx (fun k budget =>
        .generateReply job.userText history job.requestId
          (deadlineAt - clock (k + 1)) budget) ∧
      (0 < n ↔ 0 < deadlineAt - clock 1) ∧
      (∀ k, k + 1 < n ↔ k < n ∧ outgrown (outcomes k) ∧ k + 1 < 4 ∧
        0 < deadlineAt - clock (k + 2)) ∧
      out.1 = verdict ((List.range n).map outcomes) := by
  intro deadlineAt out n
  have hout : out = runWithin clock outcomes job history deadlineAt none
      deferredMaxOutputTokenSteps ⟨1, []⟩ := rfl
  obtain ⟨m, hm⟩ := @exists_escalates clock outcomes job history deadlineAt
    deferredMaxOutputTokenSteps none ⟨1, []⟩
  rw [← hout] at hm
  have hsteps : deferredMaxOutputTokenSteps = [256, 512, 1024, 2048] := rfl
  have hasked := hm.asked
  have hn : n = m := by
    have hwithin := hm.within
    show out.2.requests.length = m
    rw [hasked, List.nil_append, List.length_mapIdx, List.length_take]
    omega
  have hnext : ∀ k, k + 1 < n ↔ k < n ∧ outgrown (outcomes k) ∧ k + 1 < 4 ∧
      0 < deadlineAt - clock (k + 2) := by
    intro k
    have hk := hm.next k
    have hreading : 1 + (k + 1) = k + 2 := by omega
    rwa [List.length_nil, Nat.zero_add, hreading, ← hn] at hk
  refine ⟨hn ▸ hm.within, ?_, ?_, hnext, ?_⟩
  · rw [hn, hasked]
    simp only [List.nil_append, Nat.add_comm 1]
    rfl
  · rw [hn, hm.first]
    simp [hsteps]
  · rw [hm.result, verdict_of_failures, hn]
    · simp [leftOver]
    · exact fun k hk => exists_error_of_outgrown ((hnext k).mp hk).2.1

end AliceSkill
