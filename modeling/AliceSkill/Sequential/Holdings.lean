import AliceSkill.Effects.Disturbed
import AliceSkill.Sequential.Runs
import AliceSkill.Concurrent.Machines

/-!
# What an operation knows of its record

An operation reads the record of its conversation once and then only writes it.
Keys may expire before every command, so from then on the record is the last one
written, or gone.  The phases of the protocol say which of these is known, and
every method of the pending store leads from one phase to the next, whatever
expires between its commands.
-/

namespace AliceSkill

open Text Effects Program RedisPendingReplyStore ConversationService

/-! ## Phases -/

/-- Commands on records do not fail; calls on the other ports may. -/
def recordsWork (a : Answer) : Command → Prop
  | .kv _ _ => a.fault = none
  | .port _ => True

/-- What is known of the record of the conversation inside an operation. -/
inductive Holding where
  /-- It has not been read. -/
  | unread
  /-- There is none. -/
  | gone
  /-- It is this one, unless it has expired. -/
  | last (r : PendingReply)

namespace Holding

def Admits : Holding → PendingReply → Prop
  | unread, r => r.Coherent anyText
  | gone, _ => False
  | last r', r => r = r'

/-- There is no record, or one of the job. -/
def Owned (j : JobId) : Holding → Prop
  | unread => False
  | gone => True
  | last r => r.jobId = j

/-- Whatever the record is, it is coherent. -/
def Settled (q : Holding) : Prop := ∀ r, q.Admits r → r.Coherent anyText

def delivered (j : JobId) : Holding → Holding
  | last r => last (deliveredRecord j r)
  | q => q

def May (key : Str) (q : Holding) : Call → Prop
  | .port _ => True
  | .pending (.getPending k) => k = key ∧ q = unread
  | .pending (.startPending k _) => k = key ∧ q = gone
  | .pending (.markReady k j ..) => k = key ∧ q.Owned j
  | .pending (.markFailed k _ _) => k = key ∧ q = unread
  | .pending (.markDelivered k j) => k = key ∧ q.Owned j
  | .pending (.clearPending k j) => k = key ∧ ∃ i, j = some i ∧ q.Owned i

def Possible : (op : Call) → Except PyException op.Res → Prop
  | .pending (.getPending _), x =>
      ∃ found, x = .ok found ∧ ∀ r, found = some r → r.Coherent anyText
  | .pending (.markReady ..), x => ∃ r, x = .ok (some r)
  | .pending _, x => ∃ v, x = .ok v
  | .port (.generateReply ..), x => ∀ reply, x = .ok reply → reply.Coherent
  | .port _, _ => True

def next (q : Holding) : (op : Call) → Except PyException op.Res → Holding
  | .pending (.getPending _), .ok found => found.elim gone last
  | .pending (.startPending _ job), _ => last (processingRecord job.jobId)
  | .pending (.markReady _ j replyText replyTts tailText mode request), _ =>
      last (readyRecord j replyText replyTts tailText mode request)
  | .pending (.markDelivered _ j), _ => q.delivered j
  | .pending (.clearPending ..), _ => gone
  | _, _ => q

end Holding

/-- The protocol of an operation on the conversation `key`. -/
def holdings (key : Str) : Protocol CallSig PyException Holding where
  may := Holding.May key
  possible _ := Holding.Possible
  next := Holding.next

/-- The records as far as an operation on `key` knows them. -/
def Knows (key : Str) (q : Holding) (w : World) : Prop :=
  ∀ k r, w.pending k = some r →
    if k = key then q.Admits r else r.Coherent anyText

section Commands

variable {cfg : Settings} {key k : Str} {q q' : Holding} {w : World}
variable {r : PendingReply} {j : JobId} {self : PendingCall}

theorem Knows.of_pending {w' : World} (h : Knows key q w)
    (heq : w'.pending = w.pending) : Knows key q w' := by
  intro k r hr
  rw [heq] at hr
  exact h k r hr

theorem Knows.admits (h : Knows key q w) (hr : w.pending key = some r) :
    q.Admits r := by
  have hadmits := h key r hr
  rwa [if_pos rfl] at hadmits

theorem Knows.setPending (h : Knows key q w) {r : Option PendingReply}
    (hr : ∀ r', r = some r' → q'.Admits r') :
    Knows key q' (w.setPending key r) := by
  intro k r' hk
  by_cases hkey : k = key
  · subst hkey
    rw [if_pos rfl]
    apply hr
    rwa [World.setPending_pending_same] at hk
  · rw [World.setPending_pending_ne _ _ hkey] at hk
    have hold := h k r' hk
    rw [if_neg hkey] at hold
    rwa [if_neg hkey]

theorem Knows.store (h : Knows key q w) :
    Knows key (.last r) (w.setPending key (some r)) :=
  h.setPending fun _ hr => (Option.some.inj hr).symm

theorem Knows.clear (h : Knows key q w) :
    Knows key .gone (w.setPending key none) :=
  h.setPending (by simp)

/-- A key that is seen to have no record has none. -/
theorem Knows.absent (h : Knows key q w) (hnone : w.pending key = none) :
    Knows key q' w := by
  have hstored : Knows key q' (w.setPending key none) := h.setPending (by simp)
  rwa [World.setPending_self hnone] at hstored

theorem Knows.seen (h : Knows key q w) (hr : w.pending key = some r) :
    Knows key (.last r) w := by
  have hstored := h.store (r := r)
  rwa [World.setPending_self hr] at hstored

/-- In a phase that owns the record, the record is the one last written. -/
theorem Holding.Owned.of_admits (hown : q.Owned j) (hr : q.Admits r) :
    q = .last r ∧ r.jobId = j := by
  cases q with
  | unread => exact hown.elim
  | gone => exact hr.elim
  | last r' =>
      have heq : r = r' := hr
      rw [heq]
      exact ⟨rfl, hown⟩

theorem Knows.not_replaced (h : Knows key q w) (hown : q.Owned j) :
    replacedBy (w.pending key) j = false := by
  cases hr : w.pending key with
  | none => rfl
  | some r =>
      have hj := (hown.of_admits (h.admits hr)).2
      simp [replacedBy, hj]

/-- Expiry does not add to what is known. -/
theorem stable_knows :
    Stable (fun (e : Expiry) w => w.expire e) (Knows key q) := by
  intro e w h
  cases e with
  | idempotency k => exact h.of_pending rfl
  | history k => exact h.of_pending rfl
  | pending k =>
      intro k' r hr
      have hr' : (w.setPending k none).pending k' = some r := hr
      apply h
      by_cases hk : k' = k
      · subst hk
        simp at hr'
      · rwa [World.setPending_pending_ne _ _ hk] at hr'

/-- One command, made after any expiries. -/
theorem wp_kv {cmd : KvCommand}
    {R : Except PyException cmd.Res → World → Prop} (hw : Knows key q w)
    (h : ∀ w', Knows key q w' → R (.ok (cmd.reply w')) (cmd.apply w')) :
    (issue (.kv self cmd)).wp
      ((execCommand cfg).disturbed fun (e : Expiry) w => w.expire e)
      (fun a c => recordsWork a.2 c) R w := by
  refine wp_perform_disturbed stable_knows hw fun a w' ha hw' => ?_
  have hfault : a.fault = none := ha
  rw [execCommand_kv hfault]
  exact h w' hw'

end Commands

/-- Whatever method of the store is called in a phase, its outcome is one the
protocol expects, and the next phase is known to hold. -/
theorem wp_method {cfg : Settings} {key : Str} {q : Holding} {w : World}
    {c : PendingCall} (hmay : Holding.May key q (.pending c))
    (hw : Knows key q w) :
    (method c).wp ((execCommand cfg).disturbed fun (e : Expiry) w => w.expire e)
      (fun a c => recordsWork a.2 c)
      (fun x w' => Holding.Possible (.pending c) x ∧
        Knows key (q.next (.pending c) x) w') w := by
  cases c with
  | getPending k =>
      obtain ⟨rfl, rfl⟩ := hmay
      refine wp_kv hw fun w' hw' => ⟨⟨_, rfl, ?_⟩, ?_⟩
      · intro r hr
        exact hw'.admits hr
      · show Knows k ((w'.pending k).elim Holding.gone Holding.last) w'
        cases hr : w'.pending k with
        | none => exact hw'.absent hr
        | some r => exact hw'.seen hr
  | startPending k job =>
      obtain ⟨rfl, rfl⟩ := hmay
      rw [method, startPending, bind_eq, wp_bind]
      refine wp_kv hw fun w' hw' => ?_
      have hnone : w'.pending k = none := by
        cases hr : w'.pending k with
        | none => rfl
        | some r => exact (hw'.admits hr).elim
      simp only [KvCommand.reply, KvCommand.apply, hnone, Option.isNone_none,
        if_true]
      exact ⟨⟨_, rfl⟩, hw'.store⟩
  | markReady k j replyText replyTts tailText mode request =>
      obtain ⟨rfl, hown⟩ := hmay
      rw [method, markReady, bind_eq, wp_bind]
      refine wp_kv hw fun w' hw' => ?_
      simp only [KvCommand.reply, KvCommand.apply, hw'.not_replaced hown,
        Bool.false_eq_true, if_false, bind_eq, wp_bind]
      refine wp_kv hw' fun w'' hw'' => ?_
      exact ⟨⟨_, rfl⟩, hw''.store⟩
  | markFailed k j m =>
      obtain ⟨rfl, rfl⟩ := hmay
      rw [method, markFailed, bind_eq, wp_bind]
      refine wp_kv hw fun w' hw' => ?_
      cases hreplaced : replacedBy (w'.pending k) j with
      | true =>
          simp only [KvCommand.reply, KvCommand.apply, hreplaced, if_true]
          exact ⟨⟨_, rfl⟩, hw'⟩
      | false =>
          simp only [KvCommand.reply, KvCommand.apply, hreplaced,
            Bool.false_eq_true, if_false]
          refine wp_kv hw' fun w'' hw'' => ⟨⟨_, rfl⟩, hw''.setPending ?_⟩
          intro r hr
          cases hr
          exact .failed j m
  | markDelivered k j =>
      obtain ⟨rfl, hown⟩ := hmay
      rw [method, markDelivered, bind_eq, wp_bind]
      refine wp_kv hw fun w' hw' => ?_
      simp only [KvCommand.reply, KvCommand.apply]
      cases hr : w'.pending k with
      | none => exact ⟨⟨_, rfl⟩, hw'.absent hr⟩
      | some r =>
          obtain ⟨rfl, hj⟩ := hown.of_admits (hw'.admits hr)
          simp only [hj, ne_eq, not_true, if_false]
          refine wp_kv hw' fun w'' hw'' => ?_
          exact ⟨⟨_, rfl⟩, hw''.store⟩
  | clearPending k j =>
      obtain ⟨rfl, i, rfl, hown⟩ := hmay
      rw [method, clearPending, bind_eq, wp_bind]
      refine wp_kv hw fun w' hw' => ?_
      simp only [KvCommand.reply, KvCommand.apply]
      cases hr : w'.pending k with
      | none => exact ⟨⟨_, rfl⟩, hw'.absent hr⟩
      | some r =>
          obtain ⟨rfl, hj⟩ := hown.of_admits (hw'.admits hr)
          simp only [hj, ne_eq, not_true, if_false]
          refine wp_kv hw' fun w'' hw'' => ?_
          exact ⟨⟨_, rfl⟩, hw''.clear⟩

/-- Every call leads from what is known in one phase to what is known in the
next. -/
theorem wp_implement {cfg : Settings} {key : Str} {q : Holding} {w : World}
    {op : Call} (hmay : (holdings key).may q op) (hw : Knows key q w) :
    (implement op).wp
      ((execCommand cfg).disturbed fun (e : Expiry) w => w.expire e)
      (fun a c => recordsWork a.2 c)
      (fun x w' => (holdings key).possible q op x ∧
        Knows key ((holdings key).next q op x) w') w := by
  cases op with
  | pending c => exact wp_method hmay hw
  | port c =>
      refine wp_perform_disturbed stable_knows hw fun a w' _ hw' => ?_
      cases hfault : a.fault with
      | some e =>
          rw [execCommand_fault hfault]
          refine ⟨?_, hw'⟩
          cases c <;> first | trivial | exact fun reply h => nomatch h
      | none =>
          rw [execCommand_port hfault]
          refine ⟨?_, hw'.of_pending (PortCall.exec_pending cfg a c w')⟩
          cases c <;> try trivial
          case generateReply =>
            intro reply h
            rw [← Except.ok.inj h]
            exact prepareLlmReply_coherent a.rawText

end AliceSkill
