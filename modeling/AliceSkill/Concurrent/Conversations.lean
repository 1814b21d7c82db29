import AliceSkill.Concurrent.Commands
import AliceSkill.Domain.Keys
import AliceSkill.Effects.Confining
import AliceSkill.Services.Calls

/-!
# Conversations do not mix

Requests of all users share the stores, the queue and the workers.  In every
run at the level of single commands, what is spoken to a user, what the model
is shown and what is kept under the keys of a conversation was said in this
conversation: by its user, or by the model to one of its threads.
-/

namespace AliceSkill

open Text Effects Program Machine RedisPendingReplyStore ConversationService

/-! ## Texts -/

/-- A text of a reply. -/
def LLMReply.Says (reply : LLMReply) (t : Str) : Prop :=
  t = reply.shortText ∨ t = reply.rawText ∨ t ∈ reply.followupText ∨
    t ∈ reply.continuationRequest

/-- A text of a record that can be heard or asked. -/
def PendingReply.Says (r : PendingReply) (t : Str) : Prop :=
  t ∈ r.replyText ∨ t ∈ r.replyTts ∨ t ∈ r.tailText ∨ t ∈ r.continuationRequest

/-- The response says a phrase of the service or presents a text in `Φ`. -/
def Voices (Φ : Str → Prop) (payload : AliceWebhookRequest)
    (response : AliceWebhookResponse) : Prop :=
  ∃ text buttons, response = respond payload text buttons ∧
    (text ∈ ownPhrases ∨ ∃ t mode, Φ t ∧ text = presentReplyText t mode)

/-- The conversation of a thread. -/
def Task.conversationKey : Task → Str
  | request payload => payload.conversationKey
  | work _ job => job.conversationKey

/-! ## What the threads of a conversation pass on -/

section Calls

variable (told : Str → Str → Prop) (asked : AliceWebhookRequest → Prop)

/-- The response was made for a request with this key. -/
def RespondsTo (key : Str) (response : AliceWebhookResponse) : Prop :=
  ∃ payload, asked payload ∧ payload.requestKey = key ∧
    Voices (told payload.conversationKey) payload response

/-- What a conversation may publish. -/
def PendingCall.Tells (Φ : Str → Prop) : PendingCall → Prop
  | markReady _ jobId replyText replyTts tailText mode request => ∀ t,
      (readyRecord jobId replyText replyTts tailText mode request).Says t → Φ t
  | _ => True

/-- What a conversation may show to the model and leave in the other stores. -/
def PortCall.Tells (key : Str) : PortCall → Prop
  | storeResponse requestKey response => ∀ r, response = .dump r →
      RespondsTo told asked requestKey r
  | getHistory key' => key' = key
  | appendTurn key' turn => key' = key ∧ told key turn.content
  | generateReply userText history _ _ _ => told key userText ∧
      ∀ turn ∈ history, told key turn.content
  | enqueue job => job.conversationKey = key ∧ told key job.userText
  | persistTurns key' turns => key' = key ∧ ∀ turn ∈ turns, told key turn.content
  | persistJobResult job reply _ => job.conversationKey = key ∧
      ∀ r ∈ reply, ∀ t, r.Says t → told key t
  | _ => True

/-- What the other ports return to a conversation. -/
def PortCall.Hears (key : Str) : (c : PortCall) → c.Res → Prop
  | getCachedResponse requestKey, x => ∀ r, x = some (.dump r) →
      RespondsTo told asked requestKey r
  | getHistory _, x => ∀ turn ∈ x, told key turn.content
  | generateReply .., reply => ∀ t, LLMReply.Says reply t → told key t
  | _, _ => True

def Call.Tells (key : Str) : Call → Prop
  | .pending c => c.key = key ∧ c.Tells (told key)
  | .port c => c.Tells told asked key

def Call.Hears (key : Str) : (c : Call) → c.Res → Prop
  | .pending (.getPending _), x => ∀ r ∈ x, ∀ t, PendingReply.Says r t → told key t
  | .port c, x => c.Hears told asked key x
  | _, _ => True

end Calls

section Service

variable {told : Str → Str → Prop} {asked : AliceWebhookRequest → Prop}
variable {key u : Str} {payload : AliceWebhookRequest} {α : Type}

/-- What a thread is started with belongs to its conversation. -/
def Task.Knows (told : Str → Str → Prop) (asked : AliceWebhookRequest → Prop) :
    Task → Prop
  | request payload => asked payload ∧
      told payload.conversationKey (sanitizeUserText payload.utterance)
  | work _ job => told job.conversationKey job.userText

/-- The response of a request was made for its key. -/
def Task.Returns (told : Str → Str → Prop) (asked : AliceWebhookRequest → Prop) :
    Task → Option AliceWebhookResponse → Prop
  | request payload, x => ∀ response ∈ x,
      RespondsTo told asked payload.requestKey response
  | work _ _, _ => True

end Service

/-! ## Commands -/

section Commands

variable (told : Str → Str → Prop) (asked : AliceWebhookRequest → Prop)

/-- What a conversation may write into its record. -/
def KvCommand.Tells (Φ : Str → Prop) : KvCommand → Prop
  | set _ r => ∀ t, r.Says t → Φ t
  | setNx _ r => ∀ t, r.Says t → Φ t
  | _ => True

def Command.Tells (key : Str) : Command → Prop
  | .kv _ cmd => cmd.key = key ∧ cmd.Tells (told key)
  | .port c => c.Tells told asked key

def Command.Hears (key : Str) : (op : Command) → op.Res → Prop
  | .kv _ (.get _), x => ∀ r ∈ x, ∀ t, PendingReply.Says r t → told key t
  | .port c, x => c.Hears told asked key x
  | _, _ => True

end Commands

section Methods

variable {told : Str → Str → Prop} {asked : AliceWebhookRequest → Prop}
variable {key : Str} {self : PendingCall} {r : PendingReply} {α : Type}
variable {P : α → Prop}

end Methods

/-! ## What the stores hold -/

/-- Everything under the keys of a conversation was told in it. -/
structure World.Apart (told : Str → Str → Prop)
    (asked : AliceWebhookRequest → Prop) (w : World) : Prop where
  pending : ∀ key r, w.pending key = some r → ∀ t, r.Says t → told key t
  history : ∀ key, ∀ turn ∈ w.history key, told key turn.content
  stream : ∀ e ∈ w.stream, told e.job.conversationKey e.job.userText
  idempotency : ∀ key r, w.idempotency key = some (.dump r) →
    RespondsTo told asked key r

theorem mem_of_mem_redisRange {α : Type} {start stop : ℤ} {x : α} {xs : List α}
    (h : x ∈ redisRange start stop xs) : x ∈ xs := by
  have hpart : ∀ first last : ℤ, x ∈ (if first > last then []
      else (xs.drop first.toNat).take (last - first + 1).toNat) → x ∈ xs := by
    intro first last hx
    split at hx
    · cases hx
    · exact List.mem_of_mem_drop (List.mem_of_mem_take hx)
  exact hpart _ _ h

namespace World.Apart

variable {told : Str → Str → Prop} {asked : AliceWebhookRequest → Prop}
variable {w : World} {key : Str}

theorem empty : World.empty.Apart told asked := by
  constructor <;> simp [World.empty]

theorem setPending (h : w.Apart told asked) {r : Option PendingReply}
    (hr : ∀ r' ∈ r, ∀ t, r'.Says t → told key t) :
    (w.setPending key r).Apart told asked := by
  refine { h with pending := fun key' r' hr' => ?_ }
  by_cases hkey : key' = key
  · rw [hkey, World.setPending_pending_same] at hr'
    rw [hkey]
    exact hr r' hr'
  · rw [World.setPending_pending_ne _ _ hkey] at hr'
    exact h.pending key' r' hr'

theorem setHistory (h : w.Apart told asked) {turns : List ConversationTurn}
    (hturns : ∀ turn ∈ turns, told key turn.content) :
    World.Apart told asked
      { w with history := World.updateAt w.history key turns } := by
  refine { h with history := fun key' turn hturn => ?_ }
  replace hturn : turn ∈ World.updateAt w.history key turns key' := hturn
  by_cases hkey : key' = key
  · rw [hkey, World.updateAt_same] at hturn
    rw [hkey]
    exact hturns turn hturn
  · rw [World.updateAt_ne _ _ hkey] at hturn
    exact h.history key' turn hturn

theorem setIdempotency (h : w.Apart told asked) {x : Option CachedDict}
    (hx : ∀ r, x = some (.dump r) → RespondsTo told asked key r) :
    World.Apart told asked
      { w with idempotency := World.updateAt w.idempotency key x } := by
  refine { h with idempotency := fun key' r hr => ?_ }
  replace hr : World.updateAt w.idempotency key x key' = some (.dump r) := hr
  by_cases hkey : key' = key
  · rw [hkey, World.updateAt_same] at hr
    rw [hkey]
    exact hx r hr
  · rw [World.updateAt_ne _ _ hkey] at hr
    exact h.idempotency key' r hr

theorem expire (h : w.Apart told asked) (e : Expiry) :
    (w.expire e).Apart told asked := by
  cases e with
  | pending key => exact h.setPending (by simp)
  | idempotency key => exact h.setIdempotency (by simp)
  | history key => exact h.setHistory (by simp)

/-- A command on a record gives out what was put in. -/
theorem kv (h : w.Apart told asked) {cmd : KvCommand} (self : PendingCall)
    (hcmd : cmd.key = key) (htells : cmd.Tells (told key)) :
    Command.Hears told asked key (.kv self cmd) (cmd.reply w) ∧
      (cmd.apply w).Apart told asked := by
  subst hcmd
  cases cmd with
  | get key => exact ⟨fun r hr => h.pending key r hr, h⟩
  | set key r =>
      refine ⟨trivial, h.setPending ?_⟩
      rintro _ ⟨⟩
      exact htells
  | setNx key r =>
      refine ⟨trivial, ?_⟩
      simp only [KvCommand.apply]
      split
      · refine h.setPending ?_
        rintro _ ⟨⟩
        exact htells
      · exact h
  | delete key => exact ⟨trivial, h.setPending (by simp)⟩

/-- So does a call on another port; the model has to be heard in the
conversation it is asked in. -/
theorem port (h : w.Apart told asked) {cfg : Settings} {a : Answer} {c : PortCall}
    (htells : c.Tells told asked key)
    (hmodel : ∀ u history requestId deadline budget,
      c = .generateReply u history requestId deadline budget →
        ∀ t, (prepareLlmReply a.rawText).Says t → told key t) :
    (∀ x, (c.exec cfg a w).1 = .ok x → c.Hears told asked key x) ∧
      (c.exec cfg a w).2.Apart told asked := by
  cases c with
  | getCachedResponse requestKey =>
      refine ⟨?_, h⟩
      rintro x ⟨⟩
      exact h.idempotency requestKey
  | storeResponse requestKey response =>
      refine ⟨fun _ _ => trivial, h.setIdempotency ?_⟩
      intro r hr
      exact htells r (Option.some.inj hr)
  | getHistory key' =>
      refine ⟨?_, h⟩
      rintro x ⟨⟩ turn hturn
      have hkey : key' = key := htells
      rw [← hkey]
      exact h.history key' turn (mem_of_mem_redisRange hturn)
  | appendTurn key' turn =>
      obtain ⟨rfl, hturn⟩ := htells
      refine ⟨fun _ _ => trivial, h.setHistory fun turn' hturn' => ?_⟩
      rcases List.mem_append.mp (mem_of_mem_redisRange hturn') with hold | hnew
      · exact h.history _ turn' hold
      · rw [List.mem_singleton.mp hnew]
        exact hturn
  | generateReply userText history requestId deadlineSeconds maxOutputTokens =>
      refine ⟨?_, h⟩
      intro x hx
      have hreply : prepareLlmReply a.rawText = x := Except.ok.inj hx
      rw [← hreply]
      exact hmodel userText history requestId deadlineSeconds maxOutputTokens rfl
  | enqueue job =>
      obtain ⟨rfl, hjob⟩ := htells
      refine ⟨fun _ _ => trivial, { h with stream := fun e he => ?_ }⟩
      rcases List.mem_append.mp he with hold | hnew
      · exact h.stream e hold
      · rw [List.mem_singleton.mp hnew]
        exact hjob
  | ack streamId =>
      refine ⟨fun _ _ => trivial, { h with stream := fun e he => ?_ }⟩
      obtain ⟨e', he', hjob⟩ := job_of_modify he
      rw [hjob]
      exact h.stream e' he'
  | persistTurns key' turns => exact ⟨fun _ _ => trivial, h⟩
  | persistJobResult job reply error => exact ⟨fun _ _ => trivial, h⟩
  | checkRateLimit bucket =>
      refine ⟨fun _ _ => trivial, ?_⟩
      simp only [PortCall.exec]
      split <;> exact { h with }
  | uuid4 => exact ⟨fun _ _ => trivial, { h with }⟩
  | monotonic => exact ⟨fun _ _ => trivial, h⟩

theorem execCommand (h : w.Apart told asked) {cfg : Settings} {a : Answer}
    {op : Command} (htells : op.Tells told asked key)
    (hmodel : ∀ u history requestId deadline budget,
      op = .port (.generateReply u history requestId deadline budget) →
        a.fault = none → ∀ t, (prepareLlmReply a.rawText).Says t → told key t) :
    (∀ x, (execCommand cfg a op w).1 = .ok x → op.Hears told asked key x) ∧
      (execCommand cfg a op w).2.Apart told asked := by
  cases hfault : a.fault with
  | some e =>
      rw [execCommand_fault hfault]
      refine ⟨?_, h⟩
      rintro x ⟨⟩
  | none =>
      cases op with
      | kv self cmd =>
          rw [execCommand_kv hfault]
          obtain ⟨hhears, hworld⟩ := h.kv self htells.1 htells.2
          refine ⟨?_, hworld⟩
          rintro x ⟨⟩
          exact hhears
      | port c =>
          rw [execCommand_port hfault]
          refine h.port htells fun u history requestId deadline budget hc => ?_
          exact hmodel u history requestId deadline budget (by rw [hc]) hfault

end World.Apart

/-! ## Runs -/

section Runs

variable {cfg : Settings} {s : RedisState}

end Runs

end AliceSkill
