import AliceSkill.Effects.Hidden
import AliceSkill.Infra.World
import AliceSkill.Services.Calls

/-!
# Analytics is invisible

No operation of the service can tell whether a call on the analytics repository
has raised.  Two runs of the same operations with the same answers to all other
calls therefore have the same results and pass through the same states.
-/

namespace AliceSkill

open Text Effects Program ConversationService

/-! ## The parts of the service -/

theorem analytics_of_acts {c : Call} (h : c.Acts) : c.analytics = false := by
  rcases c with c | c
  · rfl
  · rcases c <;> first | rfl | exact h.elim

theorem analytics_of_appends {c : Call} (h : c.Appends) :
    c.analytics = false := by
  rcases c with c | c
  · exact h.elim
  · rcases c <;> first | rfl | exact h.elim

theorem analytics_of_generates {c : Call} (h : c.Generates) :
    c.analytics = false := by
  rcases c with c | c
  · exact h.elim
  · rcases c <;> first | rfl | exact h.elim

section Parts

variable {cfg : Settings} {payload : AliceWebhookRequest} {key : Str}
variable {α : Type}

theorem blind_of_acts {p : Service α} (hp : p.Only Call.Acts) :
    Blind Call.analytics p :=
  hp.blind fun _ => analytics_of_acts

theorem blind_ask {c : Call} (hc : c.analytics = false) :
    Blind Call.analytics (Ports.ask c) := by
  have honly : (Ports.ask c).Only fun op => Call.analytics op = false :=
    only_ask hc
  exact honly.blind fun _ h => h

/-- Whatever the repository does, the caller goes on. -/
theorem blind_persistAnalytics (turns : List ConversationTurn)
    (job : Option DeferredJob) (reply : Option LLMReply)
    (error : Option Str) :
    Blind Call.analytics (persistAnalytics key turns job reply error) := by
  have honly := @only_persistAnalytics key turns job reply error
  refine ⟨.ret (), (Only.of_attempt_bind honly).hides_attempt fun x => ?_⟩
  rcases x with e | _
  · exact .ret ()
  · exact .ret ()

theorem blind_appendTurns (u a : ConversationTurn) :
    Blind Call.analytics (appendTurns key u a) :=
  (only_appendTurns u a).blind fun _ => analytics_of_appends

theorem blind_recordCompletedTurns (u a : ConversationTurn) :
    Blind Call.analytics (recordCompletedTurns key u a) :=
  (blind_appendTurns u a).bind fun _ => blind_persistAnalytics _ _ _ _

theorem blind_answerQuestion (u : Str) :
    Blind Call.analytics (answerQuestion cfg payload key u) := by
  simp only [answerQuestion, bind_eq]
  refine (blind_ask rfl).bind fun history => ?_
  refine Blind.bind ?_ fun outcome => ?_
  · exact (blind_ask rfl).attempt
  rcases outcome with e | reply
  · exact blind_of_acts
      (Only.bind (only_deferRequest u) only_storeAndReturn)
  · refine (blind_recordCompletedTurns _ _).bind fun _ => ?_
    exact blind_of_acts (Only.bind (only_storeImmediateFollowup reply) fun _ =>
      only_storeAndReturn _)

theorem blind_handle (cfg : Settings) (payload : AliceWebhookRequest) :
    Blind Call.analytics (handle cfg payload) := by
  refine (blind_ask rfl).bind fun cached => ?_
  rcases cached with _ | response | _
  · rw [handleUncached]
    generalize sanitizeUserText payload.utterance = u
    refine (blind_ask rfl).bind fun pending => ?_
    by_cases hempty : u = []
    · rw [if_pos hempty]
      exact blind_of_acts (only_storeAndReturn _)
    rw [if_neg hempty]
    generalize isContinueIntent cfg.unicode u (Option.isSome pending) = continues
    rcases continues with _ | _
    · rcases pending with _ | r
      · exact blind_answerQuestion u
      · refine Blind.bind ?_ fun blocking => ?_
        · exact blind_of_acts (only_handleActivePending r)
        rcases blocking with _ | response
        · exact blind_answerQuestion u
        · exact blind_of_acts (only_storeAndReturn response)
    · exact blind_of_acts
        (Only.bind (only_handleContinue pending) only_storeAndReturn)
  · exact blind_ret _
  · exact ⟨_, .raise _⟩

theorem blind_processDeferredJob (job : DeferredJob) (deadlineSeconds : ℚ) :
    Blind Call.analytics (processDeferredJob job deadlineSeconds) := by
  simp only [processDeferredJob, bind_eq]
  refine (blind_ask rfl).bind fun current => ?_
  split
  · refine (blind_ask rfl).bind fun history => ?_
    refine Blind.bind ?_ fun reply => ?_
    · exact (only_generateDeferredReply _ _).blind fun _ =>
        analytics_of_generates
    refine (blind_appendTurns _ _).bind fun _ => ?_
    refine (blind_ask rfl).bind fun updated => ?_
    split
    · exact blind_ret _
    · exact (blind_persistAnalytics _ _ _ _).bind fun _ => blind_ret _
  · exact blind_ret _

theorem blind_failDeferredJob (job : DeferredJob) (errorMessage : Str) :
    Blind Call.analytics (failDeferredJob job errorMessage) :=
  (blind_ask rfl).bind fun _ => blind_persistAnalytics _ _ _ _

theorem blind_processJob (cfg : Settings) (job : DeferredJob) :
    Blind Call.analytics (processJob cfg job) := by
  refine (blind_processDeferredJob job _).attempt.bind fun outcome => ?_
  rcases outcome with e | reply
  · refine (blind_failDeferredJob job _).attempt.bind fun failed => ?_
    rcases failed with e | _
    · exact blind_ret _
    · exact blind_ret _
  · exact blind_ret _

end Parts

/-! ## Runs -/

/-- What the skill is asked to do from outside. -/
inductive Operation where
  | handle (payload : AliceWebhookRequest)
  | processDeferredJob (job : DeferredJob) (deadlineSeconds : ℚ)
  | failDeferredJob (job : DeferredJob) (errorMessage : Str)
  | processJob (job : DeferredJob)

namespace Operation

@[reducible] def Res : Operation → Type
  | handle _ => AliceWebhookResponse
  | processDeferredJob .. => LLMReply
  | failDeferredJob .. => Unit
  | processJob _ => Bool

def body (cfg : Settings) : (o : Operation) → Service o.Res
  | handle payload => ConversationService.handle cfg payload
  | processDeferredJob job deadlineSeconds =>
      ConversationService.processDeferredJob job deadlineSeconds
  | failDeferredJob job errorMessage =>
      ConversationService.failDeferredJob job errorMessage
  | processJob job => AliceSkill.processJob cfg job

theorem body_blind (cfg : Settings) (o : Operation) :
    Blind Call.analytics (o.body cfg) := by
  cases o with
  | handle payload => exact blind_handle cfg payload
  | processDeferredJob job deadlineSeconds =>
      exact blind_processDeferredJob job deadlineSeconds
  | failDeferredJob job errorMessage =>
      exact blind_failDeferredJob job errorMessage
  | processJob job => exact blind_processJob cfg job

end Operation

/-- The answers to the calls of one operation, by their position. -/
abbrev CallAnswers := ℕ → Call → Answer

/-- An operation, how it ended and the stores after it. -/
abbrev Observation :=
  (o : Operation) × Except PyException o.Res × World

/-- Operations one after the other, each with the answers to its calls;
`analytics n` answers the calls that the `n`-th operation makes on the analytics
repository. -/
def observe (cfg : Settings) :
    List (Operation × CallAnswers) → (ℕ → CallAnswers) → World → List Observation
  | [], _, _ => []
  | (o, answers) :: rest, analytics, w =>
      let r := (o.body cfg).runHiding Call.analytics (execCall cfg) answers
        (analytics 0) w
      ⟨o, r⟩ :: observe cfg rest (fun n => analytics (n + 1)) r.2

/-- The analytics repository is not part of the stores. -/
theorem execCall_analytics (cfg : Settings) (a : Answer) (op : Call) (w : World)
    (h : op.analytics = true) : (execCall cfg a op w).2 = w := by
  unfold execCall
  rcases a.fault with _ | e
  · rcases op with c | c
    · cases h
    · rcases c <;> first | rfl | cases h
  · rfl

/-- The results and all states between operations are the same, whichever calls
on the analytics repository raise. -/
theorem analytics_invisible (cfg : Settings) (ops : List (Operation × CallAnswers))
    (analytics analytics' : ℕ → CallAnswers) (w : World) :
    observe cfg ops analytics w = observe cfg ops analytics' w := by
  induction ops generalizing analytics analytics' w with
  | nil => rfl
  | cons op rest ih =>
      obtain ⟨o, answers⟩ := op
      have hsame := (o.body_blind cfg).runHiding_eq (execCall_analytics cfg)
        answers (analytics 0) (analytics' 0) w
      simp only [observe]
      rw [hsame, ih _ fun n => analytics' (n + 1)]

end AliceSkill
