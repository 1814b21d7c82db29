import AliceSkill.Domain.Ports
import AliceSkill.Formats.Datetime
import AliceSkill.Formats.Json

/-!
# What the records look like in Redis

The keys of `RedisKeyspace` and the texts that `infra/redis/stores.py` and
`infra/queue/redis_streams.py` write under them: pending records, turns and
cached responses as JSON, jobs as the fields of a stream entry.

Every record is read back as it has been written (`readPending_pendingToJson`
and its companions), and no two keys share a text (`RedisKeyspace.text_injective`).
A value of another JSON type than the one written is not read here; the code
would take it over into the record unchecked.
-/

namespace AliceSkill

open Text Formats

/-! ## Keys -/

/-- The settings of a deployment; the times to live are positive. -/
structure RedisSettings where
  keyPrefix : Str
  sessionTtlSeconds : ℤ
  pendingTtlSeconds : ℤ
  idempotencyTtlSeconds : ℤ
  session_pos : 0 < sessionTtlSeconds
  pending_pos : 0 < pendingTtlSeconds
  idempotency_pos : 0 < idempotencyTtlSeconds

/-- The defaults of `config.py`. -/
def RedisSettings.default : RedisSettings where
  keyPrefix := "yandex-alice-openai".toList
  sessionTtlSeconds := 60 * 60 * 24
  pendingTtlSeconds := 60 * 30
  idempotencyTtlSeconds := 60 * 15
  session_pos := by decide
  pending_pos := by decide
  idempotency_pos := by decide

/-- What a key is for. -/
inductive StoreKey where
  | history (conversationKey : Str)
  | pending (conversationKey : Str)
  | idempotency (requestKey : Str)
  | stream
  | rateLimit (bucket : Str)
  deriving DecidableEq

namespace RedisKeyspace

variable (keys : RedisSettings)

def history (conversationKey : Str) : Str :=
  keys.keyPrefix ++ (":history:".toList ++ conversationKey)

def pending (conversationKey : Str) : Str :=
  keys.keyPrefix ++ (":pending:".toList ++ conversationKey)

def idempotency (requestKey : Str) : Str :=
  keys.keyPrefix ++ (":idempotency:".toList ++ requestKey)

def stream : Str := keys.keyPrefix ++ ":jobs".toList

def rateLimit (bucket : Str) : Str :=
  keys.keyPrefix ++ (":ratelimit:".toList ++ bucket)

/-- The text of a key. -/
def text : StoreKey → Str
  | .history key => history keys key
  | .pending key => pending keys key
  | .idempotency key => idempotency keys key
  | .stream => stream keys
  | .rateLimit bucket => rateLimit keys bucket

/-- The first letter after the colon. -/
def letter : StoreKey → Char
  | .history _ => 'h'
  | .pending _ => 'p'
  | .idempotency _ => 'i'
  | .stream => 'j'
  | .rateLimit _ => 'r'

variable {keys}

theorem text_letter (key : StoreKey) :
    (text keys key)[keys.keyPrefix.length + 1]? = some (letter key) := by
  cases key <;>
    exact (List.getElem?_append_right (Nat.le_add_right _ _)).trans (by
      rw [Nat.add_sub_cancel_left]
      rfl)

/-- Keys of different kinds differ right after the colon, and keys of one kind
in the names they carry. -/
theorem text_injective : Function.Injective (text keys) := by
  intro key key' h
  have hletter : letter key = letter key' := by
    have hat := congrArg (fun t => t[keys.keyPrefix.length + 1]?) h
    simp only [text_letter] at hat
    exact Option.some.inj hat
  have hname : ∀ kind a b : Str, keys.keyPrefix ++ (kind ++ a) =
      keys.keyPrefix ++ (kind ++ b) → a = b := fun kind a b heq =>
    List.append_cancel_left (List.append_cancel_left heq)
  cases key <;> cases key' <;> simp only [letter, Char.reduceEq] at hletter
  case stream.stream => rfl
  case history.history a b => rw [hname ":history:".toList a b h]
  case pending.pending a b => rw [hname ":pending:".toList a b h]
  case idempotency.idempotency a b => rw [hname ":idempotency:".toList a b h]
  case rateLimit.rateLimit a b => rw [hname ":ratelimit:".toList a b h]

end RedisKeyspace

/-! ## Ids -/

/-- The texts that `uuid4().hex` draws.  Ids are drawn at random from 2^122 of
them; that no text is drawn twice is assumed. -/
structure Naming where
  name : JobId → Str
  read : Str → Option JobId
  read_name : ∀ j, read (name j) = some j

/-- The hexadecimal digits of 128 bits; numbers that do not occur are written
in longer texts. -/
def Naming.hex : Naming where
  name j := if j < 16 ^ 32 then pad 16 32 j else pad 10 (j + 33) j
  read t := readDigits (if t.length = 32 then 16 else 10) t
  read_name j := by
    by_cases hj : j < 16 ^ 32
    · rw [if_pos hj, length_pad, if_pos rfl]
      exact readDigits_pad (Nat.le_refl _) hj
    · have hlong : ¬ j + 33 = 32 :=
        Nat.ne_of_gt (Nat.lt_add_left j (by decide))
      have hfits : j < 10 ^ (j + 33) :=
        Nat.lt_of_lt_of_le (Nat.lt_pow_self (by decide))
          (Nat.pow_le_pow_right (by decide) (Nat.le_add_right j 33))
      rw [if_neg hj, length_pad, if_neg hlong]
      exact readDigits_pad (by decide) hfits

/-! ## Enumerations -/

namespace PendingStatus

def value : PendingStatus → Str
  | processing => "processing".toList
  | ready => "ready".toList
  | delivered => "delivered".toList
  | failed => "failed".toList

/-- `PendingStatus(text)` -/
def ofValue (t : Str) : Option PendingStatus :=
  [processing, ready, delivered, failed].find? fun s => s.value = t

theorem ofValue_value (s : PendingStatus) : ofValue s.value = some s := by
  cases s <;> rfl

end PendingStatus

namespace FollowupMode

def value : FollowupMode → Str
  | none => "none".toList
  | readyTail => "ready_tail".toList
  | deferredOffer => "deferred_offer".toList

/-- `FollowupMode(text)` -/
def ofValue (t : Str) : Option FollowupMode :=
  [none, readyTail, deferredOffer].find? fun m => m.value = t

theorem ofValue_value (m : FollowupMode) : ofValue m.value = some m := by
  cases m <;> rfl

end FollowupMode

namespace TurnRole

def value : TurnRole → Str
  | user => "user".toList
  | assistant => "assistant".toList
  | system => "system".toList

/-- `TurnRole(text)` -/
def ofValue (t : Str) : Option TurnRole :=
  [user, assistant, system].find? fun r => r.value = t

theorem ofValue_value (r : TurnRole) : ofValue r.value = some r := by
  cases r <;> rfl

end TurnRole

/-! ## Fields -/

def asText : Json → Option Str
  | .str t => some t
  | _ => none

def asInt : Json → Option ℤ
  | .int n => some n
  | _ => none

def asBool : Json → Option Bool
  | .bool b => some b
  | _ => none

/-- A text or `None`. -/
def asOptional : Json → Option (Option Str)
  | .null => some none
  | .str t => some (some t)
  | _ => none

def ofOptional : Option Str → Json
  | none => .null
  | some t => .str t

@[simp] theorem asOptional_ofOptional (t : Option Str) :
    asOptional (ofOptional t) = some t := by
  cases t <;> rfl

/-- A field that has to be there. -/
def required {α : Type} (read : Json → Option α) (payload : Json)
    (name : String) : Option α :=
  (payload.get? name.toList).bind read

theorem required_eq {α : Type} {read : Json → Option α} {payload v : Json}
    {name : String} (h : payload.get? name.toList = some v) :
    required read payload name = read v := by
  rw [required, h, Option.bind_some]

/-- A field with a default. -/
def withDefault {α : Type} (value : α) (read : Json → Option α)
    (payload : Json) (name : String) : Option α :=
  match payload.get? name.toList with
  | some v => read v
  | none => some value

def readTime (v : Json) : Option Datetime :=
  (asText v).bind Datetime.fromisoformat

/-! ## Pending records -/

/-- `_pending_to_json` -/
def pendingToJson (ids : Naming) (pending : PendingReply) (updatedAt : Datetime) :
    Str :=
  dumps (.obj [
    ("status".toList, .str pending.status.value),
    ("reply_text".toList, ofOptional pending.replyText),
    ("reply_tts".toList, ofOptional pending.replyTts),
    ("tail_text".toList, ofOptional pending.tailText),
    ("followup_mode".toList, .str pending.followupMode.value),
    ("continuation_request".toList, ofOptional pending.continuationRequest),
    ("error_message".toList, ofOptional pending.errorMessage),
    ("job_id".toList, .str (ids.name pending.jobId)),
    ("updated_at".toList, .str updatedAt.isoformat)])

/-- The record that `get_pending` makes of a text, with its `updated_at`. -/
def readPending (ids : Naming) (raw : Str) :
    Option (PendingReply × Datetime) := do
  let payload ← loads raw
  let status ← required (fun v => (asText v).bind PendingStatus.ofValue)
    payload "status"
  let replyText ← withDefault none asOptional payload "reply_text"
  let replyTts ← withDefault none asOptional payload "reply_tts"
  let tailText ← withDefault none asOptional payload "tail_text"
  let followupMode ← withDefault .none
    (fun v => (asText v).bind FollowupMode.ofValue) payload "followup_mode"
  let continuationRequest ← withDefault none asOptional payload
    "continuation_request"
  let errorMessage ← withDefault none asOptional payload "error_message"
  let jobId ← required (fun v => (asText v).bind ids.read) payload "job_id"
  let updatedAt ← required readTime payload "updated_at"
  return ({ status, replyText, replyTts, tailText, errorMessage, jobId,
            followupMode, continuationRequest }, updatedAt)

theorem readTime_isoformat (d : Datetime) :
    readTime (.str d.isoformat) = some d :=
  d.fromisoformat_isoformat

theorem readPending_pendingToJson (ids : Naming) (pending : PendingReply)
    (updatedAt : Datetime) :
    readPending ids (pendingToJson ids pending updatedAt) =
      some (pending, updatedAt) := by
  rw [readPending, pendingToJson, loads_dumps]
  change (PendingStatus.ofValue pending.status.value).bind _ = _
  rw [PendingStatus.ofValue_value, Option.bind_some]
  change (asOptional (ofOptional pending.replyText)).bind _ = _
  rw [asOptional_ofOptional, Option.bind_some]
  change (asOptional (ofOptional pending.replyTts)).bind _ = _
  rw [asOptional_ofOptional, Option.bind_some]
  change (asOptional (ofOptional pending.tailText)).bind _ = _
  rw [asOptional_ofOptional, Option.bind_some]
  change (FollowupMode.ofValue pending.followupMode.value).bind _ = _
  rw [FollowupMode.ofValue_value, Option.bind_some]
  change (asOptional (ofOptional pending.continuationRequest)).bind _ = _
  rw [asOptional_ofOptional, Option.bind_some]
  change (asOptional (ofOptional pending.errorMessage)).bind _ = _
  rw [asOptional_ofOptional, Option.bind_some]
  change (ids.read (ids.name pending.jobId)).bind _ = _
  rw [ids.read_name, Option.bind_some]
  change (readTime (.str updatedAt.isoformat)).bind _ = _
  rw [readTime_isoformat, Option.bind_some]
  rfl

/-! ## Turns -/

/-- The payload of `append_turn`. -/
def turnToJson (turn : ConversationTurn) (createdAt : Datetime) : Str :=
  dumps (.obj [
    ("role".toList, .str turn.role.value),
    ("content".toList, .str turn.content),
    ("created_at".toList, .str createdAt.isoformat)])

/-- The turn that `get_history` makes of an item, with its `created_at`. -/
def readTurn (item : Str) : Option (ConversationTurn × Datetime) := do
  let payload ← loads item
  let role ← required (fun v => (asText v).bind TurnRole.ofValue) payload "role"
  let content ← required asText payload "content"
  let createdAt ← required readTime payload "created_at"
  return ({ role, content }, createdAt)

theorem readTurn_turnToJson (turn : ConversationTurn) (createdAt : Datetime) :
    readTurn (turnToJson turn createdAt) = some (turn, createdAt) := by
  rw [readTurn, turnToJson, loads_dumps]
  change (TurnRole.ofValue turn.role.value).bind _ = _
  rw [TurnRole.ofValue_value, Option.bind_some]
  change (readTime (.str createdAt.isoformat)).bind _ = _
  rw [readTime_isoformat, Option.bind_some]
  rfl

/-! ## Cached responses -/

def AliceApplication.toJson (application : AliceApplication) : Json :=
  .obj [("application_id".toList, ofOptional application.applicationId)]

def AliceUser.toJson (user : AliceUser) : Json :=
  .obj [("user_id".toList, ofOptional user.userId)]

def AliceSession.toJson (session : AliceSession) : Json :=
  .obj [
    ("session_id".toList, .str session.sessionId),
    ("message_id".toList, .int session.messageId),
    ("user_id".toList, ofOptional session.userId),
    ("new".toList, .bool session.new),
    ("application".toList, session.application.toJson),
    ("user".toList, session.user.toJson)]

def AliceButtonsItem.toJson (button : AliceButtonsItem) : Json :=
  .obj [("title".toList, .str button.title), ("hide".toList, .bool button.hide)]

def AliceResponsePayload.toJson (payload : AliceResponsePayload) : Json :=
  .obj [
    ("text".toList, .str payload.text),
    ("tts".toList, .str payload.tts),
    ("end_session".toList, .bool payload.endSession),
    ("buttons".toList, .arr (payload.buttons.map AliceButtonsItem.toJson))]

/-- `response.model_dump()` -/
def AliceWebhookResponse.toJson (response : AliceWebhookResponse) : Json :=
  .obj [
    ("version".toList, .str response.version),
    ("response".toList, response.response.toJson),
    ("session".toList, response.session.toJson)]

def readApplication (v : Json) : Option AliceApplication := do
  let applicationId ← withDefault none asOptional v "application_id"
  return { applicationId }

def readUser (v : Json) : Option AliceUser := do
  let userId ← withDefault none asOptional v "user_id"
  return { userId }

def readSession (v : Json) : Option AliceSession := do
  let sessionId ← required asText v "session_id"
  let messageId ← required asInt v "message_id"
  let userId ← withDefault none asOptional v "user_id"
  let new ← withDefault false asBool v "new"
  let application ← withDefault ⟨none⟩ readApplication v "application"
  let user ← withDefault ⟨none⟩ readUser v "user"
  return { sessionId, messageId, userId, new, application, user }

def readButton (v : Json) : Option AliceButtonsItem := do
  let title ← required asText v "title"
  let hide ← withDefault true asBool v "hide"
  return { title, hide }

def readButtons : Json → Option (List AliceButtonsItem)
  | .arr items => items.mapM readButton
  | _ => none

def readResponsePayload (v : Json) : Option AliceResponsePayload := do
  let text ← required asText v "text"
  let tts ← required asText v "tts"
  let endSession ← withDefault false asBool v "end_session"
  let buttons ← withDefault [] readButtons v "buttons"
  return { text, tts, endSession, buttons }

/-- `AliceWebhookResponse.model_validate(value)` on values of the JSON types of
the fields; conversions between types are left out. -/
def readResponse (v : Json) : Option AliceWebhookResponse := do
  let version ← withDefault "1.0".toList asText v "version"
  let response ← required readResponsePayload v "response"
  let session ← required readSession v "session"
  return { version, response, session }

theorem readButtons_map (buttons : List AliceButtonsItem) :
    (buttons.map AliceButtonsItem.toJson).mapM readButton = some buttons := by
  induction buttons with
  | nil => rfl
  | cons button buttons ih =>
      have hbutton : readButton button.toJson = some button := rfl
      rw [List.map_cons, List.mapM_cons, ih, hbutton]
      rfl

theorem readApplication_toJson (application : AliceApplication) :
    readApplication application.toJson = some application := by
  change (asOptional (ofOptional application.applicationId)).bind _ = _
  rw [asOptional_ofOptional, Option.bind_some]
  rfl

theorem readUser_toJson (user : AliceUser) :
    readUser user.toJson = some user := by
  change (asOptional (ofOptional user.userId)).bind _ = _
  rw [asOptional_ofOptional, Option.bind_some]
  rfl

theorem readSession_toJson (session : AliceSession) :
    readSession session.toJson = some session := by
  change (asOptional (ofOptional session.userId)).bind _ = _
  rw [asOptional_ofOptional, Option.bind_some]
  change (readApplication session.application.toJson).bind _ = _
  rw [readApplication_toJson, Option.bind_some]
  change (readUser session.user.toJson).bind _ = _
  rw [readUser_toJson, Option.bind_some]
  rfl

theorem readResponsePayload_toJson (payload : AliceResponsePayload) :
    readResponsePayload payload.toJson = some payload := by
  change ((payload.buttons.map AliceButtonsItem.toJson).mapM readButton).bind _ = _
  rw [readButtons_map, Option.bind_some]
  rfl

theorem readResponse_toJson (response : AliceWebhookResponse) :
    readResponse response.toJson = some response := by
  have hversion : withDefault "1.0".toList asText response.toJson "version" =
      some response.version := rfl
  have hpayload : required readResponsePayload response.toJson "response" =
      some response.response :=
    (required_eq rfl).trans (readResponsePayload_toJson response.response)
  have hsession : required readSession response.toJson "session" =
      some response.session :=
    (required_eq rfl).trans (readSession_toJson response.session)
  rw [readResponse, hversion, hpayload, hsession]
  rfl

/-- The object found in the cache; the empty one stands for all that do not
validate. -/
def CachedDict.toJson : CachedDict → Json
  | .dump response => response.toJson
  | .invalid => .obj []

def readCached (v : Json) : CachedDict :=
  match readResponse v with
  | some response => .dump response
  | none => .invalid

/-- The value of `get_cached_response` for a text. -/
def readCachedResponse (raw : Str) : Option (Option CachedDict) :=
  (loads raw).map fun
    | .null => none
    | v => some (readCached v)

theorem readCachedResponse_dumps (response : CachedDict) :
    readCachedResponse (dumps response.toJson) = some (some response) := by
  rw [readCachedResponse, loads_dumps]
  cases response with
  | invalid => rfl
  | dump response =>
      have hread : readCached response.toJson = .dump response := by
        rw [readCached, readResponse_toJson]
      change some (some (readCached response.toJson)) = _
      rw [hread]

/-! ## Jobs -/

/-- The fields of a stream entry, as `enqueue` writes them. -/
def jobFields (ids : Naming) (job : DeferredJob) (enqueuedAt : Datetime) :
    List (Str × Str) := [
  ("job_id".toList, ids.name job.jobId),
  ("request_id".toList, job.requestId),
  ("conversation_key".toList, job.conversationKey),
  ("user_text".toList, job.userText),
  ("enqueued_at".toList, enqueuedAt.isoformat)]

/-- `payload.get(name)` -/
def field? (payload : List (Str × Str)) (name : String) : Option Str :=
  (payload.reverse.find? fun f => f.1 = name.toList).map Prod.snd

/-- The job that `_decode_jobs` makes of the fields of an entry, without the id
of the entry, and its `enqueued_at`; the clock stands in for a missing one.  The
id that stands in for a missing job id is left out. -/
def readJob (ids : Naming) (payload : List (Str × Str)) :
    Option (DeferredJob × Option Datetime) := do
  let jobId ← (field? payload "job_id").bind ids.read
  let requestId ← field? payload "request_id"
  let conversationKey ← field? payload "conversation_key"
  let userText ← field? payload "user_text"
  let enqueuedAt ← match field? payload "enqueued_at" with
    | some t => (Datetime.fromisoformat t).map some
    | none => some none
  return ({ jobId, requestId, conversationKey, userText, streamId := none },
    enqueuedAt)

theorem readJob_jobFields (ids : Naming) (job : DeferredJob)
    (enqueuedAt : Datetime) :
    readJob ids (jobFields ids job enqueuedAt) =
      some ({ job with streamId := none }, some enqueuedAt) := by
  change (ids.read (ids.name job.jobId)).bind _ = _
  rw [ids.read_name, Option.bind_some]
  change ((Datetime.fromisoformat enqueuedAt.isoformat).map some).bind _ = _
  rw [Datetime.fromisoformat_isoformat, Option.map_some, Option.bind_some]
  rfl

/-- Whatever is written to Redis is read back as it was, time stamps included,
and two keys that share a text are the same key of the same store. -/
theorem records_read_back (ids : Naming) (keys : RedisSettings) :
    (∀ pending updatedAt,
      readPending ids (pendingToJson ids pending updatedAt) =
        some (pending, updatedAt)) ∧
    (∀ turn createdAt,
      readTurn (turnToJson turn createdAt) = some (turn, createdAt)) ∧
    (∀ response : CachedDict,
      readCachedResponse (dumps response.toJson) = some (some response)) ∧
    (∀ job enqueuedAt, readJob ids (jobFields ids job enqueuedAt) =
      some ({ job with streamId := none }, some enqueuedAt)) ∧
    Function.Injective (RedisKeyspace.text keys) :=
  ⟨readPending_pendingToJson ids, readTurn_turnToJson, readCachedResponse_dumps,
    readJob_jobFields ids, RedisKeyspace.text_injective⟩

end AliceSkill
