import AliceSkill.Effects.Refining
import AliceSkill.Infra.Adapter
import AliceSkill.Text.Collapsing

/-!
# Overlapping calls on the adapter

What the calls of any number of requests on one adapter come to, in whatever
order their steps are taken: how each one ends (`adapter_calls`), and when it is
refused (`adapter_refuses`).
-/

namespace AliceSkill

open Text Effects Program Machine OpenAIResponsesAdapter

variable {settings : OpenAISettings}

/-! ## Requests -/

/-- A call makes one request for each attempt. -/
theorem length_requests_createWithin {ρ : Type} (deadlineAt : ℚ) (retries : ℕ)
    (attempts : ℕ → Attempt ρ) (now : ℚ) (lastError : Option PyException) :
    (createWithin deadlineAt retries attempts now lastError).requests.length ≤
      retries + 1 := by
  induction retries generalizing now attempts with
  | zero =>
      by_cases hbudget : minRetryBudgetSeconds < deadlineAt - now
      · rw [createWithin_settled hbudget fun _ => rfl]
        exact Nat.le_refl 1
      · rw [createWithin_short (not_lt.mp hbudget)]
        exact Nat.zero_le 1
  | succ retries ih =>
      by_cases hbudget : minRetryBudgetSeconds < deadlineAt - now
      · by_cases hend : TimedOut (requestAt deadlineAt now (attempts 0)).ending
        · rw [createWithin_retry hbudget hend]
          exact Nat.succ_le_succ (ih _ _)
        · rw [createWithin_settled hbudget fun h => absurd h hend]
          exact Nat.succ_le_succ (Nat.zero_le _)
      · rw [createWithin_short (not_lt.mp hbudget)]
        exact Nat.zero_le _

/-- The request a call asks for. -/
def AdapterCall.asked : AdapterCall → Option ModelRequest
  | create request _ => some request
  | _ => none

/-- Each request has been received a number of times. -/
def Repeated (most : ℕ) : List ModelRequest → List ModelRequest → Prop
  | [], received => received = []
  | request :: asked, received => ∃ n ≤ most, ∃ rest, Repeated most asked rest ∧
      received = List.replicate n request ++ rest

theorem repeated_snoc {most n : ℕ} {asked received : List ModelRequest}
    (h : Repeated most asked received) (request : ModelRequest) (hn : n ≤ most) :
    Repeated most (asked ++ [request])
      (received ++ List.replicate n request) := by
  induction asked generalizing received with
  | nil =>
      cases h
      exact ⟨n, hn, [], rfl, by simp⟩
  | cons r asked ih =>
      obtain ⟨m, hm, rest, hrest, rfl⟩ := h
      exact ⟨m, hm, _, ih hrest, List.append_assoc _ _ _⟩

/-- The requests that have been asked for, the first one first. -/
def asked (log : List (Event AdapterSig PyException)) : List ModelRequest :=
  (log.filterMap fun e => AdapterCall.asked e.op).reverse

theorem repeated_received {s : AdapterRun}
    (hs : (adapterMachine settings).Reachable Any .new s) :
    Repeated (settings.maxRetries + 1) (asked s.log) s.world.received := by
  refine hs.invariant (I := fun s : AdapterRun =>
    Repeated (settings.maxRetries + 1) (asked s.log) s.world.received) ?_ ?_
  · rfl
  intro s s' act _ ih _ hst
  rcases step_cases hst with ⟨l, -, -, rfl⟩ |
    ⟨tid, a, l, op, k, -, -, -, rfl⟩ | ⟨e, -, -⟩
  · exact ih
  · cases op with
    | create request deadlineSeconds =>
        have hfew := length_requests_createWithin (a.now + deadlineSeconds)
          settings.maxRetries a.attempts a.now none
        have hsnoc := repeated_snoc ih request hfew
        simp only [afterCall, execAdapter, asked, List.filterMap_cons,
          AdapterCall.asked, List.reverse_cons, List.map_const']
        exact hsnoc
    | _ => exact ih
  · exact e.elim

/-! ## Calls -/

/-- How a call can end, after which calls of its own. -/
inductive Ends (settings : OpenAISettings) (c : ReplyCall) :
    List (CallResult AdapterSig PyException) → Except PyException LLMReply → Prop where
  /-- The circuit is open. -/
  | refused : Ends settings c [⟨.allow, .ok false⟩] (.error circuitOpenError)
  /-- The model has not answered in time, or not at all. -/
  | failed (utcNow : Formats.Datetime) (exc : PyException) :
      Ends settings c [⟨.allow, .ok true⟩, ⟨.utcNow, .ok utcNow⟩,
        ⟨.create (c.request settings utcNow) c.deadlineSeconds, .error exc⟩,
        ⟨.recordFailure, .ok ()⟩] (.error exc)
  /-- The model has been cut off, which the breaker takes for an answer. -/
  | incomplete (utcNow : Formats.Datetime) (response : ModelResponse)
      (cutOff : responseIsIncomplete response = true) :
      Ends settings c [⟨.allow, .ok true⟩, ⟨.utcNow, .ok utcNow⟩,
        ⟨.create (c.request settings utcNow) c.deadlineSeconds, .ok response⟩,
        ⟨.recordSuccess, .ok ()⟩]
        (.error (incompleteResponseError (incompleteReason response)))
  | answered (utcNow : Formats.Datetime) (response : ModelResponse)
      (complete : responseIsIncomplete response = false) :
      Ends settings c [⟨.allow, .ok true⟩, ⟨.utcNow, .ok utcNow⟩,
        ⟨.create (c.request settings utcNow) c.deadlineSeconds, .ok response⟩,
        ⟨.recordSuccess, .ok ()⟩] (.ok (prepareLlmReply (replyText response)))

/-- Only requests to the model fail. -/
def Surely (op : AdapterCall) (x : Except PyException op.Res) : Prop :=
  op.asked = none → ∃ r, x = .ok r

theorem surely_execAdapter (a : AdapterAnswer) (op : AdapterCall)
    (s : AdapterState) : Surely op (execAdapter settings a op s).1 := by
  intro hasked
  cases op with
  | create request deadlineSeconds => cases hasked
  | _ => exact ⟨_, rfl⟩

theorem ofExcept_ne_call {r : Except PyException LLMReply} (op : AdapterCall)
    (k : Except PyException op.Res → AdapterCode LLMReply) :
    Program.ofExcept r ≠ @call AdapterSig _ _ op k := by
  intro heq
  cases r <;> cases heq

/-- Calls that can only be recorded leave what they record. -/
theorem executes_record {op : AdapterCall} {k : op.Res → AdapterCode LLMReply}
    {outcomes : List (CallResult AdapterSig PyException)}
    {r : Except PyException LLMReply} (hasked : op.asked = none)
    (hsure : ∀ o ∈ outcomes, Surely o.op o.res)
    (h : ((@perform AdapterSig _ op).bind k).Executes outcomes
      (Program.ofExcept r)) :
    ∃ v rest, outcomes = ⟨op, .ok v⟩ :: rest ∧
      (∀ o ∈ rest, Surely o.op o.res) ∧
      (k v).Executes rest (Program.ofExcept r) := by
  obtain ⟨x, rest, rfl, hrest⟩ := executes_call h (ofExcept_ne_call op)
  have hx : ∃ v, x = .ok v := hsure _ List.mem_cons_self hasked
  obtain ⟨v, rfl⟩ := hx
  exact ⟨v, rest, rfl, fun o ho => hsure o (List.mem_cons_of_mem _ ho), hrest⟩

theorem executes_ended {r r' : Except PyException LLMReply}
    {outcomes : List (CallResult AdapterSig PyException)}
    (h : (Program.ofExcept r').Executes outcomes (Program.ofExcept r)) :
    outcomes = [] ∧ r' = r := by
  cases r' with
  | ok a =>
      obtain ⟨hnil, heq⟩ := executes_ret h
      cases r <;> cases heq
      exact ⟨hnil, rfl⟩
  | error e =>
      obtain ⟨hnil, heq⟩ := executes_raise h
      cases r <;> cases heq
      exact ⟨hnil, rfl⟩

theorem ends_of_executes {c : ReplyCall}
    {outcomes : List (CallResult AdapterSig PyException)}
    {r : Except PyException LLMReply} (hsure : ∀ o ∈ outcomes, Surely o.op o.res)
    (h : (generateReply settings c).Executes outcomes (Program.ofExcept r)) :
    Ends settings c outcomes r := by
  obtain ⟨allowed, outcomes₁, rfl, hsure₁, h₁⟩ := executes_record rfl hsure h
  cases allowed with
  | false =>
      obtain ⟨rfl, rfl⟩ := @executes_ended r (.error circuitOpenError) _ h₁
      exact .refused
  | true =>
      obtain ⟨utcNow, outcomes₂, rfl, hsure₂, h₂⟩ :=
        @executes_record .utcNow _ outcomes₁ r rfl hsure₁ h₁
      obtain ⟨x, outcomes₃, rfl, h₃⟩ := executes_call h₂
        (ofExcept_ne_call (.create (c.request settings utcNow) c.deadlineSeconds))
      have hsure₃ : ∀ o ∈ outcomes₃, Surely o.op o.res := fun o ho =>
        hsure₂ o (List.mem_cons_of_mem _ ho)
      cases x with
      | error exc =>
          obtain ⟨_, outcomes₄, rfl, -, h₄⟩ :=
            @executes_record .recordFailure (fun _ => raise exc) outcomes₃ r rfl
              hsure₃ h₃
          obtain ⟨rfl, rfl⟩ := @executes_ended r (.error exc) _ h₄
          exact .failed utcNow exc
      | ok response =>
          obtain ⟨y, outcomes₄, rfl, h₄⟩ := executes_call h₃
            (ofExcept_ne_call .recordSuccess)
          have hy : ∃ v, y = .ok v := hsure₃ _ List.mem_cons_self rfl
          obtain ⟨_, rfl⟩ := hy
          have hread : Program.Executes (if responseIsIncomplete response then
                raise (incompleteResponseError (incompleteReason response))
              else ret (prepareLlmReply (replyText response)))
              outcomes₄ (Program.ofExcept r) := h₄
          cases hcut : responseIsIncomplete response with
          | true =>
              rw [if_pos hcut] at hread
              obtain ⟨rfl, rfl⟩ := @executes_ended r (.error
                (incompleteResponseError (incompleteReason response))) _ hread
              exact .incomplete utcNow response hcut
          | false =>
              rw [if_neg (Bool.not_eq_true _ ▸ hcut)] at hread
              obtain ⟨rfl, rfl⟩ := @executes_ended r
                (.ok (prepareLlmReply (replyText response))) _ hread
              exact .answered utcNow response hcut

/-! ## The text of a reply -/

theorem strip_strip (t : Str) : strip (strip t) = strip t := by
  by_cases hne : strip t = []
  · rw [hne]
    rfl
  have hfront : lstripBy isSpace (strip t) = strip t :=
    List.dropWhile_eq_self_iff.mpr fun hpos => by
      have hhead : ¬isSpace ((strip t).head hne) := stripBy_head hne
      rwa [List.head_eq_getElem] at hhead
  have hback : rstripBy isSpace (strip t) = strip t :=
    List.rdropWhile_eq_self_iff.mpr fun h => stripBy_getLast h
  rw [strip.eq_def (strip t), stripBy, hfront, hback]

theorem strip_extractResponseText (response : ModelResponse) :
    strip (extractResponseText response) = extractResponseText response := by
  rw [extractResponseText]
  split_ifs
  · exact strip_strip _
  · exact strip_strip _

/-- A reply is made of a text without blanks around it. -/
theorem replyText_spoken (response : ModelResponse) :
    replyText response ≠ [] ∧ strip (replyText response) = replyText response := by
  by_cases hempty : extractResponseText response = []
  · rw [replyText, if_pos hempty]
    decide +kernel
  · rw [replyText, if_neg hempty]
    exact ⟨hempty, strip_extractResponseText response⟩

theorem spoken_of_ends {c : ReplyCall}
    {outcomes : List (CallResult AdapterSig PyException)} {reply : LLMReply}
    (h : Ends settings c outcomes (.ok reply)) :
    ∃ rawText, rawText ≠ [] ∧ strip rawText = rawText ∧
      reply = prepareLlmReply rawText := by
  generalize hr : (Except.ok reply : Except PyException LLMReply) = r at h
  cases h with
  | answered utcNow response complete =>
      obtain ⟨hne, hstrip⟩ := replyText_spoken response
      exact ⟨_, hne, hstrip, Except.ok.inj hr⟩
  | _ => cases hr

/-! ## The breaker -/

/-- The call of the program that a call on the breaker belongs to. -/
def BreakerCall.op : BreakerCall → AdapterCall
  | allow _ => .allow
  | recordSuccess => .recordSuccess
  | recordFailure _ => .recordFailure

/-- Calls on the breaker. -/
def AdapterCall.onBreaker : AdapterCall → Bool
  | utcNow => false
  | create .. => false
  | _ => true

/-- The calls on the breaker, the first one first. -/
def onBreaker (log : List (Event AdapterSig PyException)) : List AdapterCall :=
  (log.map fun e => e.op).reverse.filter AdapterCall.onBreaker

/-- The breaker is what the calls of all threads have made of a new one. -/
structure Kept (s : AdapterRun) : Prop where
  breaker : s.world.breaker = SimpleCircuitBreaker.afterAll {} s.world.calls
  calls : s.world.calls.map BreakerCall.op = onBreaker s.log

theorem afterAll_snoc (breaker : SimpleCircuitBreaker) (calls : List BreakerCall)
    (call : BreakerCall) :
    breaker.afterAll (calls ++ [call]) = (breaker.afterAll calls).after call := by
  rw [SimpleCircuitBreaker.afterAll, List.foldl_append]
  rfl

theorem kept_call {s s' : AdapterRun} (h : Kept s) {e : Event AdapterSig PyException}
    (call : BreakerCall) (hworld : s'.world = s.world.after call)
    (hop : e.op = call.op) (hlog : s'.log = e :: s.log) : Kept s' where
  breaker := by
    rw [hworld]
    change s.world.breaker.after call =
      SimpleCircuitBreaker.afterAll {} (s.world.calls ++ [call])
    rw [afterAll_snoc, h.breaker]
  calls := by
    have hon : AdapterCall.onBreaker call.op = true := by cases call <;> rfl
    rw [hworld, hlog, onBreaker, List.map_cons, List.reverse_cons,
      List.filter_append, hop, List.filter_singleton, hon]
    change (s.world.calls ++ [call]).map BreakerCall.op = onBreaker s.log ++ [call.op]
    rw [List.map_append, h.calls]
    rfl

theorem kept_aside {s s' : AdapterRun} (h : Kept s)
    {e : Event AdapterSig PyException}
    (hbreaker : s'.world.breaker = s.world.breaker)
    (hcalls : s'.world.calls = s.world.calls)
    (hop : e.op.onBreaker = false) (hlog : s'.log = e :: s.log) : Kept s' where
  breaker := by
    rw [hbreaker, hcalls]
    exact h.breaker
  calls := by
    rw [hcalls, hlog, h.calls, onBreaker, onBreaker, List.map_cons,
      List.reverse_cons, List.filter_append, List.filter_singleton, hop]
    simp

theorem kept {s : AdapterRun}
    (hs : (adapterMachine settings).Reachable Any .new s) : Kept s := by
  refine hs.invariant (I := Kept) ⟨rfl, rfl⟩ ?_
  intro s s' act _ h _ hst
  rcases step_cases hst with ⟨l, -, -, rfl⟩ |
    ⟨tid, a, l, op, k, -, -, -, rfl⟩ | ⟨e, -, -⟩
  · exact ⟨h.breaker, h.calls⟩
  · cases op with
    | allow => exact kept_call h (.allow a.now) rfl rfl rfl
    | recordSuccess => exact kept_call h .recordSuccess rfl rfl rfl
    | recordFailure => exact kept_call h (.recordFailure a.now) rfl rfl rfl
    | utcNow => exact kept_aside h rfl rfl rfl rfl
    | create request deadlineSeconds => exact kept_aside h rfl rfl rfl rfl
  · exact e.elim

/-- The breaker refuses by the history of its calls. -/
theorem refused_iff {s : AdapterRun} (h : Kept s) (now : ℚ) :
    (s.world.breaker.allow now).1 = false ↔
      IsOpen 3 (failuresSinceClosing 3 20 s.world.calls) ∧
        IsRecent 20 (failuresSinceClosing 3 20 s.world.calls) now := by
  have hnew : Tracks ({} : SimpleCircuitBreaker) [] := Tracks.closed (by decide) rfl
  have htracks := hnew.afterAll (by decide) s.world.calls
  have hsettings := ({} : SimpleCircuitBreaker).settings_afterAll s.world.calls
  have hallow := htracks.allow_eq now
  rw [hsettings.1, hsettings.2, ← h.breaker] at hallow
  rw [hallow, failuresSinceClosing]
  split_ifs with hopen hrecent
  · exact iff_of_true rfl ⟨hopen, hrecent⟩
  · exact iff_of_false (by simp) fun h => hrecent h.2
  · exact iff_of_false (by simp) fun h => hopen h.1

/-- What a call does with the answer of the breaker. -/
theorem step_allow {s s' : AdapterRun} {i : ℕ} {c : ReplyCall}
    (hth : s.threads[i]? = some ⟨c, generateReply settings c⟩) {a : AdapterAnswer}
    (hst : (adapterMachine settings).Step s (.step i a) s') :
    s'.world.received = s.world.received ∧
      s'.threads[i]? = some ⟨c, if !(s.world.breaker.allow a.now).1 then
        raise circuitOpenError else requestReply settings c⟩ := by
  rcases step_cases hst with ⟨l, hact, -, -⟩ |
    ⟨tid, a', l, op, k, hact, hget, -, rfl⟩ | ⟨e, -, -⟩
  · cases hact
  · cases hact
    have hnext := afterCall_threads (M := adapterMachine settings) hget a i
    cases hth.symm.trans hget
    refine ⟨rfl, ?_⟩
    rw [hnext, if_pos rfl]
    rfl
  · exact e.elim

/-! ## Results -/

/-- A model that does not answer for ten seconds. -/
def silent : AdapterAnswer where
  now := 0
  utc := .epoch
  attempts _ := ⟨10, .error timeoutError, by decide +kernel⟩

/-- Three calls that the model does not answer. -/
def silentSchedule (c : ReplyCall) : List (Action AdapterAnswer ReplyCall Empty) :=
  [.spawn c, .spawn c, .spawn c, .step 0 silent, .step 1 silent, .step 2 silent,
    .step 0 silent, .step 1 silent, .step 2 silent, .step 0 silent,
    .step 0 silent, .step 1 silent, .step 1 silent, .step 2 silent, .step 2 silent]

/-- A model that times out on the first attempt and answers the next one, each
within a tenth of a second. -/
def hesitant (response : ModelResponse) : AdapterAnswer where
  now := 0
  utc := .epoch
  attempts
    | 0 => ⟨1 / 10, .error timeoutError, by decide +kernel⟩
    | _ => ⟨1 / 10, .ok response, by decide +kernel⟩

/-- Two calls that overlap: the first one is answered, the second one is not. -/
def overlappingCalls (c : ReplyCall) (response : ModelResponse) :
    List (Action AdapterAnswer ReplyCall Empty) :=
  [.spawn c, .spawn c, .step 0 silent, .step 1 silent, .step 0 silent,
    .step 1 silent, .step 1 silent, .step 0 (hesitant response), .step 1 silent,
    .step 0 silent]

def someSettings : OpenAISettings where
  model := "gpt-5.4-mini".toList
  maxRetries := 1
  webSearchEnabled := true
  webSearchContextSize := "low".toList
  systemPrompt := []

def someCall : ReplyCall := ⟨"кит".toList, [], "r".toList, 11 / 5, none⟩

def someResponse : ModelResponse := ⟨"Кит живет в море.\n".toList, [], none, none⟩

/-- The reply that a thread has returned. -/
def replyOf (s : AdapterRun) (i : ℕ) : Option LLMReply :=
  match s.threads[i]? with
  | some ⟨_, .ret reply⟩ => some reply
  | _ => none

theorem thread_of_replyOf {s : AdapterRun} {i : ℕ} {reply : LLMReply}
    (h : replyOf s i = some reply) :
    ∃ c, s.threads[i]? = some ⟨c, ret reply⟩ := by
  rw [replyOf] at h
  split at h
  · next c reply' hth =>
    cases h
    exact ⟨c, hth⟩
  · cases h

/-- However calls overlap, each one that ends has been refused without a request,
has failed with its request, has been cut off, or has a complete response of
which its reply is made; and `responses.create` is called with nothing but the
requests of the calls, with each at most once more than there are retries. -/
theorem adapter_calls {s : AdapterRun}
    (hs : (adapterMachine settings).Reachable Any .new s) :
    (∀ (i : ℕ) c r, s.threads[i]? = some ⟨c, Program.ofExcept r⟩ →
      Ends settings c (s.outcomes i) r) ∧
    (∀ (i : ℕ) c reply, s.threads[i]? = some ⟨c, ret reply⟩ →
      ∃ rawText, rawText ≠ [] ∧ strip rawText = rawText ∧
        reply = prepareLlmReply rawText) ∧
    Repeated (settings.maxRetries + 1) (asked s.log) s.world.received := by
  have hends : ∀ (i : ℕ) c r, s.threads[i]? = some ⟨c, Program.ofExcept r⟩ →
      Ends settings c (s.outcomes i) r := by
    intro i c r hth
    have hsure : ∀ o ∈ s.outcomes i, Surely o.op o.res :=
      hs.outcomes_of (P := Surely) surely_execAdapter i
    have hexec : (generateReply settings c).Executes (s.outcomes i)
        (Program.ofExcept r) := hs.executes i ⟨c, Program.ofExcept r⟩ hth
    exact ends_of_executes hsure hexec
  refine ⟨hends, fun i c reply hth => ?_, repeated_received hs⟩
  exact spoken_of_ends (hends i c (.ok reply) hth)

/-- The reply to a call that was tried twice, next to a call that has failed. -/
theorem overlapping_call_replied :
    ∃ (s : AdapterRun) (c : ReplyCall) (reply : LLMReply),
      s.threads[0]? = some ⟨c, ret reply⟩ ∧ s.world.received.length = 3 ∧
      Ends someSettings c (s.outcomes 0) (.ok reply) ∧
      (∃ rawText, rawText ≠ [] ∧ strip rawText = rawText ∧
        reply = prepareLlmReply rawText) ∧
      Repeated 2 (asked s.log) s.world.received := by
  have hrun : ((adapterMachine someSettings).runFrom Any (initial .new)
      (overlappingCalls someCall someResponse)).map (fun s =>
        (s.world.received.length, (replyOf s 0).map LLMReply.rawText)) =
      some (3, some "Кит живет в море.".toList) := by
    decide +kernel
  obtain ⟨s, hs, hobs⟩ := Option.map_eq_some_iff.mp hrun
  obtain ⟨hlength, hraw⟩ := Prod.mk.inj hobs
  obtain ⟨reply, hreply, -⟩ := Option.map_eq_some_iff.mp hraw
  obtain ⟨c, hth⟩ := thread_of_replyOf hreply
  obtain ⟨hends, hspoken, hrepeated⟩ := adapter_calls (reachable_runFrom .start hs)
  exact ⟨s, c, reply, hth, hlength, hends 0 c (.ok reply) hth,
    hspoken 0 c reply hth, hrepeated⟩

/-- A call is refused exactly when, of the failures that calls have recorded since
the circuit was last closed, there are three and the latest is less than twenty
seconds ago; it then ends without a request. -/
theorem adapter_refuses {s s' : AdapterRun}
    (hs : (adapterMachine settings).Reachable Any .new s) {i : ℕ} {c : ReplyCall}
    (hth : s.threads[i]? = some ⟨c, generateReply settings c⟩) {a : AdapterAnswer}
    (hst : (adapterMachine settings).Step s (.step i a) s') :
    (s'.threads[i]? = some ⟨c, raise circuitOpenError⟩ ↔
      IsOpen 3 (failuresSinceClosing 3 20 s.world.calls) ∧
        IsRecent 20 (failuresSinceClosing 3 20 s.world.calls) a.now) ∧
    s'.world.received = s.world.received ∧
    s.world.calls.map BreakerCall.op = onBreaker s.log := by
  have hkept := kept hs
  obtain ⟨hreceived, hnext⟩ := step_allow hth hst
  refine ⟨?_, hreceived, hkept.calls⟩
  · rw [hnext, ← refused_iff hkept]
    cases hallowed : (s.world.breaker.allow a.now).1 with
    | false => exact iff_of_true rfl rfl
    | true => exact iff_of_false (fun h => by cases h) Bool.noConfusion

theorem silent_refused :
    ∃ (s s' : AdapterRun) (i : ℕ), s.world.received.length = 3 ∧
      s'.threads[i]? = some ⟨someCall, raise circuitOpenError⟩ ∧
      s'.world.received = s.world.received := by
  have hrun : ((adapterMachine someSettings).runFrom Any (initial .new)
      (silentSchedule someCall)).map (fun s => (s.world.received.length,
        decide (IsOpen 3 (failuresSinceClosing 3 20 s.world.calls) ∧
          IsRecent 20 (failuresSinceClosing 3 20 s.world.calls) 10))) =
      some (3, true) := by
    decide +kernel
  obtain ⟨s, hs, hobs⟩ := Option.map_eq_some_iff.mp hrun
  obtain ⟨hlength, hopen⟩ := Prod.mk.inj hobs
  -- A fourth call comes ten seconds later.
  let t := (adapterMachine someSettings).spawned s someCall
  let a : AdapterAnswer := { silent with now := 10 }
  have hspawn : (adapterMachine someSettings).Step s (.spawn someCall) t :=
    ⟨trivial, rfl⟩
  have ht : (adapterMachine someSettings).Reachable Any .new t :=
    (reachable_runFrom .start hs).step trivial hspawn
  have hth : t.threads[s.threads.length]? =
      some ⟨someCall, generateReply someSettings someCall⟩ := by
    rw [spawned_threads, if_pos rfl]
  have hallow : (adapterMachine someSettings).Allows t (.step s.threads.length a) := by
    simp only [Allows, hth]
    exact trivial
  obtain ⟨s', hs'⟩ : ∃ s', (adapterMachine someSettings).advance t
      (.step s.threads.length a) = some s' := by
    simp only [advance, hth]
    exact ⟨_, rfl⟩
  obtain ⟨hrefused, hreceived, -⟩ := adapter_refuses ht hth ⟨hallow, hs'⟩
  exact ⟨s, s', _, hlength, hrefused.mpr (of_decide_eq_true hopen), hreceived⟩

end AliceSkill
