import AliceSkill.Concurrent.Commands
import AliceSkill.Concurrent.Queueing
import AliceSkill.Effects.Alone
import AliceSkill.Sequential.Progress
import Mathlib.Algebra.Order.Ring.Rat

/-!
# A question can still be answered

Whatever has gone wrong so far, a question whose record is in progress is not
stuck: if the failures stop, some steps lead to the answer.  The accounts of
the jobs name who has to take them, and a thread that goes on alone can be
followed along the service code.
-/

namespace AliceSkill

open Text Effects Program Machine RedisPendingReplyStore ConversationService

variable {cfg : Settings} {w : World} {t : Str}

variable {s : RedisState} {key : Str} {r : PendingReply}

end AliceSkill
