import AliceSkill.Effects.Protocol
import AliceSkill.Domain.Keys
import AliceSkill.Sequential.Buttons
import AliceSkill.Sequential.Progress
import AliceSkill.Sequential.Webhook
import AliceSkill.Sequential.Analytics
import AliceSkill.Sequential.Shapes
import AliceSkill.Sequential.Delivery
import AliceSkill.Sequential.Spoken
import AliceSkill.Concurrent.Guards
import AliceSkill.Concurrent.Queueing
import AliceSkill.Concurrent.Answers
import AliceSkill.Concurrent.Idempotency
import AliceSkill.Concurrent.Recovery
import AliceSkill.Concurrent.Exchanges
import AliceSkill.Concurrent.Publication
import AliceSkill.Concurrent.Redelivery
import AliceSkill.Concurrent.Offers
import AliceSkill.Services.Followups
import AliceSkill.Services.Decoding
import AliceSkill.Services.Instructions
import AliceSkill.Services.Markup
import AliceSkill.Services.Escalation
import AliceSkill.Services.Intent
import AliceSkill.Infra.Breaker
import AliceSkill.Infra.RateLimit
import AliceSkill.Infra.Budget
import AliceSkill.Concurrent.Reclaiming
import AliceSkill.Concurrent.Effort
import AliceSkill.Concurrent.Lifetimes
import AliceSkill.Concurrent.Replies
import AliceSkill.Concurrent.Acknowledged
import AliceSkill.Concurrent.Answerable
import AliceSkill.Concurrent.Conversations
