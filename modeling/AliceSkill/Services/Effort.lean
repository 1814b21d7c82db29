import AliceSkill.Effects.Bounds
import AliceSkill.Entry.Points

/-!
# How much one request or job may ask for

Bounds on the calls of a request and of a worker execution, whatever they
return: with a price for a command on the stores and one for a call of the
model, what a path through the program costs at most.
-/

namespace AliceSkill

open Text Effects Program ConversationService

/-- What a call costs: a method of the pending store takes two commands at
most, any other call takes one. -/
def Call.effort (command model : ℕ) : Call → ℕ
  | .pending (.getPending _) => command
  | .pending _ => 2 * command
  | .port (.generateReply ..) => model
  | .port _ => command

section Effort

variable {command model : ℕ}

/-- Bounds on the way up are added and then rounded. -/
theorem atMost_bind {α β : Type} {p : Service α} {f : α → Service β} {n m b : ℕ}
    (hp : p.AtMost (Call.effort command model) n)
    (hf : ∀ a, (f a).AtMost (Call.effort command model) m) (hle : n + m ≤ b) :
    (p.bind f).AtMost (Call.effort command model) b :=
  (hp.bind hf).mono hle

theorem atMost_ask {c : Call} {n : ℕ} (h : c.effort command model ≤ n) :
    (Ports.ask c).AtMost (Call.effort command model) n :=
  atMost_perform h

namespace ConversationService

variable {key : Str} {payload : AliceWebhookRequest} {job : DeferredJob}

theorem atMost_appendTurns (u a : ConversationTurn) :
    (appendTurns key u a).AtMost (Call.effort command model) (2 * command) := by
  have happend : ((Ports.appendTurn key u).bind fun _ =>
      Ports.appendTurn key a).AtMost (Call.effort command model) (2 * command) :=
    atMost_bind (atMost_ask (Nat.le_refl _)) (fun _ => atMost_ask (Nat.le_refl _))
      (Nat.le_of_eq (Nat.two_mul command).symm)
  refine atMost_bind happend.attempt (m := 0) (fun r => ?_) (Nat.le_refl _)
  rcases r <;> trivial

/-- The result of a job is one command, where there is a job. -/
theorem atMost_persistJob (job : Option DeferredJob) (reply : Option LLMReply)
    (error : Option Str) :
    (match job with
      | some job => Ports.persistJobResult job reply error
      | none => return () : Service Unit).AtMost (Call.effort command model)
        (if job = none then 0 else command) := by
  cases job with
  | none => trivial
  | some job => exact atMost_ask (Nat.le_refl _)

theorem atMost_persistAnalytics (turns : List ConversationTurn)
    (job : Option DeferredJob) (reply : Option LLMReply) (error : Option Str) :
    (persistAnalytics key turns job reply error).AtMost
      (Call.effort command model)
      ((if turns = [] then 0 else command) + if job = none then 0 else command) := by
  have hjob := @atMost_persistJob command model job reply error
  refine atMost_bind (AtMost.attempt ?_) (m := 0) (fun r => ?_) (Nat.le_refl _)
  · by_cases hturns : turns = []
    · rw [if_neg (not_not_intro hturns)]
      exact hjob.mono (Nat.le_add_left _ _)
    · rw [if_pos hturns, if_neg hturns]
      exact (atMost_ask (Nat.le_refl _)).bind fun _ => hjob
  · rcases r <;> trivial

theorem atMost_recordCompletedTurns (u a : ConversationTurn) :
    (recordCompletedTurns key u a).AtMost (Call.effort command model)
      (3 * command) := by
  refine atMost_bind (atMost_appendTurns u a) (fun _ =>
    atMost_persistAnalytics [u, a] none none none) ?_
  simp only [reduceCtorEq, if_false, if_true]
  omega

theorem atMost_enqueueOrClear :
    (enqueueOrClear key job).AtMost (Call.effort command model)
      (3 * command) := by
  refine atMost_bind (atMost_ask (Nat.le_refl _)).attempt (m := 2 * command)
    (fun r => ?_) ?_
  · rcases r with e | ⟨⟩
    · exact atMost_bind (atMost_ask (Nat.le_refl _)) (m := 0) (fun _ => trivial)
        (Nat.le_refl _)
    · trivial
  · simp only [Call.effort]
    omega

theorem atMost_deferRequest (utterance : Str) :
    (deferRequest payload key utterance).AtMost (Call.effort command model)
      (6 * command) := by
  refine atMost_bind (atMost_ask (Nat.le_refl _)) (m := 5 * command)
    (fun jobId => ?_) ?_
  · refine atMost_bind (atMost_ask (Nat.le_refl _)) (m := 3 * command)
      (fun pending => ?_) ?_
    · split
      · exact atMost_bind atMost_enqueueOrClear (m := 0) (fun _ => trivial)
          (Nat.le_refl _)
      · trivial
    · simp only [Call.effort]
      omega
  · simp only [Call.effort]
    omega

theorem atMost_storeImmediateFollowup (reply : LLMReply) :
    (storeImmediateFollowup key reply).AtMost (Call.effort command model)
      (5 * command) := by
  unfold storeImmediateFollowup
  split
  · trivial
  · refine atMost_bind (atMost_ask (Nat.le_refl _)) (m := 4 * command)
      (fun jobId => ?_) ?_
    · split
      · exact atMost_bind (atMost_ask (Nat.le_refl _)) (m := 0) (fun _ => trivial)
          (by simp only [Call.effort]; omega)
      · exact atMost_bind (atMost_ask (Nat.le_refl _)) (m := 2 * command)
          (fun _ => atMost_ask (Nat.le_refl _)) (by simp only [Call.effort]; omega)
      · trivial
    · simp only [Call.effort]
      omega

theorem atMost_handleActivePending (pending : PendingReply) :
    (handleActivePending payload key pending).AtMost (Call.effort command model)
      (2 * command) := by
  unfold handleActivePending
  split
  · trivial
  · trivial
  · exact atMost_bind (atMost_ask (Nat.le_refl _)) (m := 0) (fun _ => trivial)
      (Nat.le_refl _)
  · exact atMost_bind (atMost_ask (Nat.le_refl _)) (m := 0) (fun _ => trivial)
      (Nat.le_refl _)

theorem atMost_deliver (pending : PendingReply) (replyText : Str) :
    (deliver payload key pending replyText).AtMost (Call.effort command model)
      (6 * command) := by
  have hclear : ∀ response : AliceWebhookResponse,
      ((Ports.clearPending key (some pending.jobId)).bind fun _ =>
        ret response).AtMost (Call.effort command model) (2 * command) :=
    fun _ => atMost_bind (atMost_ask (Nat.le_refl _)) (m := 0) (fun _ => trivial)
      (Nat.le_refl _)
  refine atMost_bind (n := 2 * command) (m := 4 * command) ?_ (fun _ => ?_) (by omega)
  · split
    · exact atMost_ask (Nat.le_refl _)
    · trivial
  · split
    · refine atMost_bind (atMost_ask (Nat.le_refl _)) (m := 2 * command)
        (fun updated => ?_) (by simp only [Call.effort]; omega)
      refine atMost_bind (n := 2 * command) (m := 0) ?_ (fun _ => trivial)
        (Nat.le_refl _)
      split
      · exact atMost_ask (Nat.le_refl _)
      · trivial
    · split
      · trivial
      · exact (hclear _).mono (by omega)

theorem atMost_handleContinue (pending : Option PendingReply) :
    (handleContinue payload key pending).AtMost (Call.effort command model)
      (8 * command) := by
  unfold handleContinue
  split
  · trivial
  · split
    · trivial
    split
    · exact atMost_bind (atMost_ask (Nat.le_refl _)) (m := 0) (fun _ => trivial)
        (by simp only [Call.effort]; omega)
    split
    · exact atMost_bind (atMost_ask (Nat.le_refl _))
        (fun _ => atMost_deferRequest _) (by simp only [Call.effort]; omega)
    split
    · exact (atMost_deliver _ _).mono (by omega)
    · trivial

theorem atMost_storeAndReturn (response : AliceWebhookResponse) :
    (storeAndReturn payload response).AtMost (Call.effort command model)
      command :=
  atMost_bind (atMost_ask (Nat.le_refl _)) (m := 0) (fun _ => trivial)
    (Nat.le_refl _)

theorem atMost_answerQuestion (cfg : Settings) (utterance : Str) :
    (answerQuestion cfg payload key utterance).AtMost (Call.effort command model)
      (10 * command + model) := by
  refine atMost_bind (atMost_ask (Nat.le_refl _)) (m := 9 * command + model)
    (fun history => ?_) (by simp only [Call.effort]; omega)
  refine atMost_bind (atMost_ask (Nat.le_refl _)).attempt (m := 9 * command)
    (fun outcome => ?_) (by simp only [Call.effort]; omega)
  rcases outcome with e | reply
  · exact atMost_bind (atMost_deferRequest _) (fun _ => atMost_storeAndReturn _)
      (by omega)
  · refine atMost_bind (atMost_recordCompletedTurns _ _) (m := 6 * command)
      (fun _ => ?_) (by omega)
    exact atMost_bind (atMost_storeImmediateFollowup _)
      (fun _ => atMost_storeAndReturn _) (by omega)

theorem atMost_handleUncached (cfg : Settings) :
    (handleUncached cfg payload).AtMost (Call.effort command model)
      (13 * command + model) := by
  refine atMost_bind (atMost_ask (Nat.le_refl _)) (m := 12 * command + model)
    (fun pending => ?_) (by simp only [Call.effort]; omega)
  split
  · exact (atMost_storeAndReturn _).mono (by omega)
  split
  · exact atMost_bind (atMost_handleContinue _) (fun _ => atMost_storeAndReturn _)
      (by omega)
  split
  · exact (atMost_answerQuestion _ _).mono (by omega)
  · refine atMost_bind (atMost_handleActivePending _) (m := 10 * command + model)
      (fun blocking => ?_) (by omega)
    split
    · exact (atMost_storeAndReturn _).mono (by omega)
    · exact atMost_answerQuestion _ _

/-- A request asks the model once and issues fourteen commands at most. -/
theorem atMost_handle (cfg : Settings) :
    (handle cfg payload).AtMost (Call.effort command model)
      (14 * command + model) := by
  refine atMost_bind (atMost_ask (Nat.le_refl _)) (m := 13 * command + model)
    (fun cached => ?_) (by simp only [Call.effort]; omega)
  rcases cached with _ | cached
  · exact atMost_handleUncached cfg
  · simp only
    split <;> trivial

/-- A reading of the clock and a call of the model for each output budget. -/
theorem atMost_generateWithin (history : List ConversationTurn) (deadlineAt : ℚ)
    (last : Option PyException) (steps : List ℕ) :
    (generateWithin job history deadlineAt last steps).AtMost
      (Call.effort command model) (steps.length * (command + model)) := by
  induction steps generalizing last with
  | nil => rcases last <;> trivial
  | cons maxOutputTokens steps ih =>
      unfold generateWithin
      rw [List.length_cons, Nat.succ_mul]
      simp only [bind_eq]
      refine atMost_bind (atMost_ask (Nat.le_refl _))
        (m := steps.length * (command + model) + model) (fun now => ?_) ?_
      · split
        · rcases last <;> trivial
        · refine atMost_bind (atMost_ask (Nat.le_refl _)).attempt
            (m := steps.length * (command + model)) (fun outcome => ?_) ?_
          · rcases outcome with e | reply
            · simp only
              split
              · trivial
              · exact ih (some e)
            · trivial
          · simp only [Call.effort]
            omega
      · simp only [Call.effort]
        omega

theorem atMost_generateDeferredReply (history : List ConversationTurn)
    (deadlineSeconds : ℚ) :
    (generateDeferredReply job history deadlineSeconds).AtMost
      (Call.effort command model) (5 * command + 4 * model) :=
  atMost_bind (atMost_ask (Nat.le_refl _))
    (fun now => atMost_generateWithin history _ none deferredMaxOutputTokenSteps)
    (by simp only [Call.effort, deferredMaxOutputTokenSteps, List.length_cons,
      List.length_nil]; omega)

theorem atMost_processDeferredJob (deadlineSeconds : ℚ) :
    (processDeferredJob job deadlineSeconds).AtMost (Call.effort command model)
      (13 * command + 4 * model) := by
  refine atMost_bind (atMost_ask (Nat.le_refl _)) (m := 12 * command + 4 * model)
    (fun current => ?_) (by simp only [Call.effort]; omega)
  split
  · refine atMost_bind (atMost_ask (Nat.le_refl _)) (m := 11 * command + 4 * model)
      (fun history => ?_) (by simp only [Call.effort]; omega)
    refine atMost_bind (atMost_generateDeferredReply _ _) (m := 6 * command)
      (fun reply => ?_) (by omega)
    refine atMost_bind (atMost_appendTurns _ _) (m := 4 * command) (fun _ => ?_)
      (by omega)
    refine atMost_bind (atMost_ask (Nat.le_refl _)) (m := 2 * command)
      (fun updated => ?_) (by simp only [Call.effort]; omega)
    split
    · trivial
    · refine atMost_bind (atMost_persistAnalytics _ _ _ _) (m := 0)
        (fun _ => trivial) ?_
      simp only [reduceCtorEq, if_false]
      omega
  · trivial

theorem atMost_failDeferredJob (errorMessage : Str) :
    (failDeferredJob job errorMessage).AtMost (Call.effort command model)
      (3 * command) := by
  refine atMost_bind (atMost_ask (Nat.le_refl _))
    (fun _ => atMost_persistAnalytics _ _ _ _) ?_
  simp only [Call.effort, reduceCtorEq, if_true, if_false]
  omega

/-- An execution asks the model four times and issues seventeen commands at
most. -/
theorem atMost_workJob (cfg : Settings) :
    (workJob cfg job).AtMost (Call.effort command model)
      (17 * command + 4 * model) := by
  have hprocess : (processJob cfg job).AtMost (Call.effort command model)
      (16 * command + 4 * model) := by
    refine atMost_bind (atMost_processDeferredJob _).attempt (m := 3 * command)
      (fun outcome => ?_) (by omega)
    rcases outcome with e | reply
    · refine atMost_bind (atMost_failDeferredJob _).attempt (m := 0)
        (fun failed => ?_) (Nat.le_refl _)
      rcases failed <;> trivial
    · trivial
  refine atMost_bind hprocess (m := command) (fun shouldAck => ?_) (by omega)
  rcases shouldAck with _ | _
  · trivial
  · rcases job.streamId with _ | streamId
    · trivial
    · exact atMost_bind (atMost_ask (Nat.le_refl _)).attempt (m := 0)
        (fun _ => trivial) (Nat.le_refl _)

/-- Whatever happens to a job, its worker goes on. -/
theorem returns_workJob (cfg : Settings) : (workJob cfg job).Returns := by
  have hprocess : (processJob cfg job).Returns := by
    refine (returns_attempt _).bind fun outcome => ?_
    rcases outcome with e | reply
    · refine (returns_attempt _).bind fun failed => ?_
      rcases failed <;> trivial
    · trivial
  refine hprocess.bind fun shouldAck => ?_
  rcases shouldAck with _ | _
  · trivial
  · rcases job.streamId with _ | streamId
    · trivial
    · exact (returns_attempt _).bind fun _ => trivial

end ConversationService

end Effort

end AliceSkill
