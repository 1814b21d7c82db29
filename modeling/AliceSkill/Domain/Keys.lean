import AliceSkill.Domain.Models
import AliceSkill.Text.Separated

/-!
# What the keys tell apart

The request key and the conversation key join ids that come from the client.
A colon inside an id looks like a separator, so that payloads with different
ids may share a key.  `isolated_iff` says exactly which payloads share their
keys with no other.
-/

namespace AliceSkill

open Text

namespace AliceWebhookRequest

/-- The user id as it stands in the keys. -/
def effectiveUserId (payload : AliceWebhookRequest) : Str :=
  orText payload.userId "anonymous".toList

/-- The device id as it stands in the conversation key. -/
def effectiveDeviceId (payload : AliceWebhookRequest) : Str :=
  orText (payload.device.bind AliceDevice.deviceId) payload.session.sessionId

/-- The decimal form of the message id. -/
def messageText (payload : AliceWebhookRequest) : Str :=
  (toString payload.session.messageId).toList

/-- No other request has the request key, and no other user, device or session
has the conversation key. -/
structure Isolated (payload : AliceWebhookRequest) : Prop where
  request : ∀ other : AliceWebhookRequest,
    other.requestKey = payload.requestKey →
      other.applicationId = payload.applicationId ∧
      other.effectiveUserId = payload.effectiveUserId ∧
      other.session.sessionId = payload.session.sessionId ∧
      other.session.messageId = payload.session.messageId
  conversation : ∀ other : AliceWebhookRequest,
    other.conversationKey = payload.conversationKey →
      other.applicationId = payload.applicationId ∧
      other.effectiveUserId = payload.effectiveUserId ∧
      other.effectiveDeviceId = payload.effectiveDeviceId ∧
      other.session.sessionId = payload.session.sessionId

/-- No id contains a colon, apart from the places where a colon can only be
read in one way: at the start of the application id, as the whole user id, and
as the whole device id of a session with a name. -/
def Unambiguous (payload : AliceWebhookRequest) : Prop :=
  ':' ∉ payload.applicationId.tail ∧
  (':' ∉ payload.effectiveUserId ∨ payload.effectiveUserId = [':']) ∧
  ':' ∉ payload.session.sessionId ∧
  (':' ∉ payload.effectiveDeviceId ∨
    payload.effectiveDeviceId = [':'] ∧ payload.session.sessionId ≠ [])

/-! ## The pieces of the keys -/

variable {payload other : AliceWebhookRequest}

theorem orText_ne_nil {a : Option Str} {b : Str} (hb : b ≠ []) :
    orText a b ≠ [] := by
  rcases a with _ | _ | ⟨c, cs⟩
  · exact hb
  · exact hb
  · exact List.cons_ne_nil c cs

theorem applicationId_ne_nil (payload : AliceWebhookRequest) :
    payload.applicationId ≠ [] :=
  orText_ne_nil (by decide)

theorem effectiveUserId_ne_nil (payload : AliceWebhookRequest) :
    payload.effectiveUserId ≠ [] :=
  orText_ne_nil (by decide)

/-- The device id is empty only when the session id takes its place. -/
theorem sessionId_of_effectiveDeviceId (h : payload.effectiveDeviceId = []) :
    payload.session.sessionId = [] := by
  rw [effectiveDeviceId] at h
  by_contra hs
  exact orText_ne_nil hs h

/-- The decimal digits of a natural number determine it. -/
theorem toDigits_injective {m n : ℕ}
    (h : Nat.toDigits 10 m = Nat.toDigits 10 n) : m = n := by
  have hvalue := congrArg (fun ds => Nat.ofDigitChars 10 ds 0) h
  simpa only [Nat.ofDigitChars_ten_toDigits] using hvalue

theorem isDigit_of_mem_toDigits {n : ℕ} {c : Char}
    (h : c ∈ Nat.toDigits 10 n) : c.isDigit = true :=
  Nat.isDigit_of_mem_toDigits (by omega) (by omega) h

/-- The message id is written with digits, and a sign if it is negative. -/
theorem messageText_eq (payload : AliceWebhookRequest) :
    payload.messageText =
      if 0 ≤ payload.session.messageId then
        Nat.toDigits 10 payload.session.messageId.toNat
      else '-' :: Nat.toDigits 10 (-payload.session.messageId).toNat := by
  rw [messageText, Int.toString_eq_repr, Int.repr_eq_if]
  split
  · rw [Nat.toList_repr]
  · rw [String.toList_append, Nat.toList_repr]
    rfl

theorem colon_notMem_messageText (payload : AliceWebhookRequest) :
    ':' ∉ payload.messageText := by
  have hdigits : ∀ n : ℕ, ':' ∉ Nat.toDigits 10 n := by
    intro n hmem
    exact absurd (isDigit_of_mem_toDigits hmem) (by decide)
  rw [messageText_eq]
  split
  · exact hdigits _
  · rw [List.mem_cons]
    rintro (hminus | hmem)
    · exact absurd hminus (by decide)
    · exact hdigits _ hmem

theorem messageText_injective
    (h : other.messageText = payload.messageText) :
    other.session.messageId = payload.session.messageId := by
  have hminus : ∀ (n : ℕ) (ds : Str), Nat.toDigits 10 n ≠ '-' :: ds := by
    intro n ds heq
    have hmem : '-' ∈ Nat.toDigits 10 n := heq ▸ List.mem_cons_self
    exact absurd (isDigit_of_mem_toDigits hmem) (by decide)
  rw [messageText_eq, messageText_eq] at h
  split at h
  · split at h
    · have hnat := toDigits_injective h
      omega
    · exact absurd h (hminus _ _)
  · split at h
    · exact absurd h.symm (hminus _ _)
    · rw [List.cons.injEq] at h
      have hnat := toDigits_injective h.2
      omega

theorem requestKey_pieces (payload : AliceWebhookRequest) :
    payload.requestKey.splitOn ':' =
      payload.applicationId.splitOn ':' ++
        (payload.effectiveUserId.splitOn ':' ++
          (payload.session.sessionId.splitOn ':' ++ [payload.messageText])) := by
  have hmessage : payload.messageText.splitOn ':' = [payload.messageText] :=
    List.splitOn_eq_singleton payload.colon_notMem_messageText
  have hkey : ([':'].intercalate [payload.applicationId,
      payload.effectiveUserId, payload.session.sessionId,
      payload.messageText]).splitOn ':' = _ :=
    splitOn_intercalate_flatMap ':' (List.cons_ne_nil _ _)
  rw [List.flatMap_cons, List.flatMap_cons, List.flatMap_cons,
    List.flatMap_singleton, hmessage] at hkey
  exact hkey

theorem conversationKey_pieces (payload : AliceWebhookRequest) :
    payload.conversationKey.splitOn ':' =
      payload.applicationId.splitOn ':' ++
        (payload.effectiveUserId.splitOn ':' ++
          (payload.effectiveDeviceId.splitOn ':' ++
            payload.session.sessionId.splitOn ':')) := by
  have hkey : ([':'].intercalate [payload.applicationId,
      payload.effectiveUserId, payload.effectiveDeviceId,
      payload.session.sessionId]).splitOn ':' = _ :=
    splitOn_intercalate_flatMap ':' (List.cons_ne_nil _ _)
  rw [List.flatMap_cons, List.flatMap_cons, List.flatMap_cons,
    List.flatMap_singleton] at hkey
  exact hkey

/-! ## Unambiguous ids -/

theorem splitOn_ne_nil_piece {t : Str} (ht : t ≠ []) :
    t.splitOn ':' ≠ [[]] := fun h => ht (splitOn_eq_nil_piece.mp h)

namespace Unambiguous

/-- The application id is one piece, or the empty piece and one more. -/
theorem application_pieces (h : payload.Unambiguous) :
    (payload.applicationId.splitOn ':').length = 1 ∨
      ∃ x, payload.applicationId.splitOn ':' = [[], x] := by
  obtain ⟨happ, -⟩ := h
  rcases ha : payload.applicationId with _ | ⟨c, cs⟩
  · exact absurd ha payload.applicationId_ne_nil
  rw [ha, List.tail_cons] at happ
  by_cases hc : c = ':'
  · right
    refine ⟨cs, ?_⟩
    rw [hc]
    exact (List.splitOn_append_cons_self_of_not_mem List.not_mem_nil cs).trans
      (congrArg _ (List.splitOn_eq_singleton happ))
  · left
    have hmem : ':' ∉ c :: cs := by
      rw [List.mem_cons]
      rintro (heq | hmem)
      · exact hc heq.symm
      · exact happ hmem
    rw [List.splitOn_eq_singleton hmem, List.length_singleton]

theorem user_pieces (h : payload.Unambiguous) :
    (payload.effectiveUserId.splitOn ':').length = 1 ∨
      payload.effectiveUserId.splitOn ':' = [[], []] := by
  obtain ⟨-, huser | huser, -⟩ := h
  · left
    rw [List.splitOn_eq_singleton huser, List.length_singleton]
  · right
    rw [huser]
    rfl

theorem session_pieces (h : payload.Unambiguous) :
    payload.session.sessionId.splitOn ':' = [payload.session.sessionId] :=
  List.splitOn_eq_singleton h.2.2.1

theorem device_pieces (h : payload.Unambiguous) :
    (payload.effectiveDeviceId.splitOn ':').length = 1 ∨
      payload.effectiveDeviceId.splitOn ':' = [[], []] ∧
        payload.session.sessionId ≠ [] := by
  obtain ⟨-, -, -, hdevice | ⟨hdevice, hsession⟩⟩ := h
  · left
    rw [List.splitOn_eq_singleton hdevice, List.length_singleton]
  · right
    rw [hdevice]
    exact ⟨rfl, hsession⟩

theorem request (h : payload.Unambiguous)
    (hkey : other.requestKey = payload.requestKey) :
    other.applicationId = payload.applicationId ∧
      other.effectiveUserId = payload.effectiveUserId ∧
      other.session.sessionId = payload.session.sessionId ∧
      other.session.messageId = payload.session.messageId := by
  have hpieces := congrArg (List.splitOn ':') hkey.symm
  rw [requestKey_pieces, requestKey_pieces, h.session_pieces] at hpieces
  have hu := List.length_pos_iff.mpr
    (List.splitOn_ne_nil ':' other.effectiveUserId)
  have hs := List.length_pos_iff.mpr
    (List.splitOn_ne_nil ':' other.session.sessionId)
  have huser : (payload.effectiveUserId.splitOn ':').length = 1 ∨
      ∃ x, payload.effectiveUserId.splitOn ':' = [[], x] :=
    h.user_pieces.imp id fun hpair => ⟨[], hpair⟩
  rcases group_cases hpieces h.application_pieces (List.splitOn_ne_nil _ _)
    (splitOn_ne_nil_piece other.applicationId_ne_nil) with
    ⟨happ, hrest⟩ | ⟨Y, hY, -, hrest⟩
  · rcases group_cases hrest.symm huser (List.splitOn_ne_nil _ _)
      (splitOn_ne_nil_piece other.effectiveUserId_ne_nil) with
      ⟨huser', hrest'⟩ | ⟨Y, hY, -, hrest'⟩
    · obtain ⟨hsession, hmessage⟩ := List.append_inj' hrest' rfl
      have hsession' := splitOn_injective ':'
        (hsession.trans h.session_pieces.symm)
      exact ⟨splitOn_injective ':' happ, splitOn_injective ':' huser',
        hsession', messageText_injective (List.singleton_inj.mp hmessage)⟩
    · -- the user id cannot take pieces: too few are left
      have hlen := congrArg List.length hrest'
      have hpos := List.length_pos_iff.mpr hY
      simp only [List.length_append, List.length_singleton] at hlen
      omega
  · -- the application id cannot take pieces of the user id
    have hlen := congrArg List.length hrest
    have hpos := List.length_pos_iff.mpr hY
    simp only [List.length_append, List.length_singleton] at hlen
    rcases h.user_pieces with hone | hpair
    · omega
    · rw [hpair] at hrest hlen
      simp only [List.length_cons, List.length_nil] at hlen
      obtain ⟨y, rfl⟩ := List.length_eq_one_iff.mp (show Y.length = 1 by omega)
      obtain ⟨u, hu'⟩ := List.length_eq_one_iff.mp
        (show (other.effectiveUserId.splitOn ':').length = 1 by omega)
      rw [hu'] at hrest
      simp only [List.cons_append, List.nil_append, List.cons.injEq] at hrest
      obtain ⟨-, rfl, -⟩ := hrest
      exact absurd hu' (splitOn_ne_nil_piece other.effectiveUserId_ne_nil)

/-- An empty device id of another payload leaves it no session id. -/
theorem session_of_empty_device (other : AliceWebhookRequest)
    (h : other.effectiveDeviceId.splitOn ':' = [[]]) :
    other.session.sessionId.splitOn ':' = [[]] := by
  rw [sessionId_of_effectiveDeviceId (splitOn_eq_nil_piece.mp h)]
  rfl

/-- The user id cannot take pieces of the device id. -/
theorem not_taken_from_device (h : payload.Unambiguous)
    (other : AliceWebhookRequest) {Y : List Str} (hY : Y ≠ [])
    (hrest : payload.effectiveDeviceId.splitOn ':' ++
        [payload.session.sessionId] =
      Y ++ (other.effectiveDeviceId.splitOn ':' ++
        other.session.sessionId.splitOn ':')) : False := by
  obtain ⟨y, Y, rfl⟩ := List.exists_cons_of_ne_nil hY
  obtain ⟨d, D, hd⟩ := List.exists_cons_of_ne_nil
    (List.splitOn_ne_nil ':' other.effectiveDeviceId)
  obtain ⟨s, S, hs⟩ := List.exists_cons_of_ne_nil
    (List.splitOn_ne_nil ':' other.session.sessionId)
  have hlen := congrArg List.length hrest
  rw [hd, hs] at hlen
  simp only [List.length_append, List.length_cons, List.length_nil] at hlen
  rcases h.device_pieces with hone | ⟨hpair, hsession⟩
  · omega
  · rw [hpair] at hrest hlen
    simp only [List.length_cons, List.length_nil] at hlen
    have hYnil : Y = [] := List.eq_nil_of_length_eq_zero (by omega)
    have hDnil : D = [] := List.eq_nil_of_length_eq_zero (by omega)
    subst hYnil hDnil
    rw [hd, hs] at hrest
    simp only [List.cons_append, List.nil_append, List.cons.injEq] at hrest
    obtain ⟨-, rfl, rfl, rfl⟩ := hrest
    have hempty := session_of_empty_device other hd
    rw [hs, List.singleton_inj] at hempty
    exact hsession hempty

/-- The application id cannot take pieces of the user id. -/
theorem not_taken_from_user (h : payload.Unambiguous)
    (other : AliceWebhookRequest) {Y : List Str} (hY : Y ≠ [])
    (hrest : payload.effectiveUserId.splitOn ':' ++
        (payload.effectiveDeviceId.splitOn ':' ++
          [payload.session.sessionId]) =
      Y ++ (other.effectiveUserId.splitOn ':' ++
        (other.effectiveDeviceId.splitOn ':' ++
          other.session.sessionId.splitOn ':'))) : False := by
  have hother := splitOn_ne_nil_piece other.effectiveUserId_ne_nil
  obtain ⟨y, Y, rfl⟩ := List.exists_cons_of_ne_nil hY
  obtain ⟨u, U, hu⟩ := List.exists_cons_of_ne_nil
    (List.splitOn_ne_nil ':' other.effectiveUserId)
  rcases h.user_pieces with hone | hpair
  · -- of the user id's one piece nothing is left for the other user id
    obtain ⟨u', hu'⟩ := List.length_eq_one_iff.mp hone
    rw [hu', List.cons_append, List.cons_append, List.cons.injEq] at hrest
    have htaken : Y ++ other.effectiveUserId.splitOn ':' ≠ [] := by
      simp [hu]
    refine h.not_taken_from_device other htaken ?_
    rw [List.append_assoc]
    exact hrest.2
  · rw [hpair] at hrest
    simp only [List.cons_append, List.nil_append, List.cons.injEq] at hrest
    obtain ⟨-, hrest⟩ := hrest
    rcases Y with _ | ⟨y', Y⟩
    · rw [hu] at hrest
      simp only [List.cons_append, List.nil_append, List.cons.injEq] at hrest
      obtain ⟨rfl, hrest⟩ := hrest
      refine h.not_taken_from_device other (Y := U) ?_ hrest
      rintro rfl
      exact hother hu
    · rw [List.cons_append, List.cons.injEq] at hrest
      have htaken : Y ++ other.effectiveUserId.splitOn ':' ≠ [] := by
        simp [hu]
      refine h.not_taken_from_device other htaken ?_
      rw [List.append_assoc]
      exact hrest.2

/-- The device id and the session id are cut in one way. -/
theorem last_groups (h : payload.Unambiguous) (other : AliceWebhookRequest)
    (hrest : other.effectiveDeviceId.splitOn ':' ++
        other.session.sessionId.splitOn ':' =
      payload.effectiveDeviceId.splitOn ':' ++ [payload.session.sessionId]) :
    other.effectiveDeviceId.splitOn ':' =
        payload.effectiveDeviceId.splitOn ':' ∧
      other.session.sessionId.splitOn ':' = [payload.session.sessionId] := by
  have hS := List.length_pos_iff.mpr
    (List.splitOn_ne_nil ':' other.session.sessionId)
  by_cases hd : other.effectiveDeviceId.splitOn ':' = [[]]
  · -- then both ids of the other payload are empty
    have hs := session_of_empty_device other hd
    rw [hd, hs] at hrest
    have hlen := congrArg List.length hrest
    simp only [List.length_append, List.length_cons, List.length_nil] at hlen
    obtain ⟨d, hd'⟩ := List.length_eq_one_iff.mp
      (show (payload.effectiveDeviceId.splitOn ':').length = 1 by omega)
    rw [hd'] at hrest
    simp only [List.cons_append, List.nil_append, List.cons.injEq] at hrest
    obtain ⟨rfl, hsession, -⟩ := hrest
    rw [hd, hs, hd', ← hsession]
    exact ⟨rfl, rfl⟩
  · have hdevice : (payload.effectiveDeviceId.splitOn ':').length = 1 ∨
        ∃ x, payload.effectiveDeviceId.splitOn ':' = [[], x] :=
      h.device_pieces.imp id fun hpair => ⟨[], hpair.1⟩
    rcases group_cases hrest.symm hdevice (List.splitOn_ne_nil _ _) hd with
      ⟨hdevice', hsession⟩ | ⟨Y, hY, -, hsession⟩
    · exact ⟨hdevice', hsession⟩
    · have hlen := congrArg List.length hsession
      have hpos := List.length_pos_iff.mpr hY
      simp only [List.length_append, List.length_singleton] at hlen
      omega

theorem conversation (h : payload.Unambiguous)
    (hkey : other.conversationKey = payload.conversationKey) :
    other.applicationId = payload.applicationId ∧
      other.effectiveUserId = payload.effectiveUserId ∧
      other.effectiveDeviceId = payload.effectiveDeviceId ∧
      other.session.sessionId = payload.session.sessionId := by
  have hpieces := congrArg (List.splitOn ':') hkey.symm
  rw [conversationKey_pieces, conversationKey_pieces, h.session_pieces]
    at hpieces
  have huser : (payload.effectiveUserId.splitOn ':').length = 1 ∨
      ∃ x, payload.effectiveUserId.splitOn ':' = [[], x] :=
    h.user_pieces.imp id fun hpair => ⟨[], hpair⟩
  rcases group_cases hpieces h.application_pieces (List.splitOn_ne_nil _ _)
    (splitOn_ne_nil_piece other.applicationId_ne_nil) with
    ⟨happ, hrest⟩ | ⟨Y, hY, -, hrest⟩
  · rcases group_cases hrest.symm huser (List.splitOn_ne_nil _ _)
      (splitOn_ne_nil_piece other.effectiveUserId_ne_nil) with
      ⟨huser', hrest'⟩ | ⟨Y, hY, -, hrest'⟩
    · have hlast : other.effectiveDeviceId.splitOn ':' =
            payload.effectiveDeviceId.splitOn ':' ∧
          other.session.sessionId.splitOn ':' =
            [payload.session.sessionId] :=
        h.last_groups other hrest'
      exact ⟨splitOn_injective ':' happ, splitOn_injective ':' huser',
        splitOn_injective ':' hlast.1,
        splitOn_injective ':' (hlast.2.trans h.session_pieces.symm)⟩
    · exact (h.not_taken_from_device other hY hrest').elim
  · exact (h.not_taken_from_user other hY hrest).elim

end Unambiguous

/-! ## Payloads that share a key -/

/-- The payload as another client could send it: the same message under other
ids. -/
def withIds (payload : AliceWebhookRequest) (application user device session :
    Str) : AliceWebhookRequest :=
  { payload with
    session := { payload.session with
      sessionId := session
      application := ⟨some application⟩
      user := ⟨some user⟩ }
    device := some ⟨some device⟩ }

theorem orElse_of_ne_nil {a : Str} (b : Option Str) (ha : a ≠ []) :
    orElse (some a) b = some a := by
  obtain ⟨c, cs, rfl⟩ := List.exists_cons_of_ne_nil ha
  rfl

theorem orText_of_ne_nil {a : Str} (b : Str) (ha : a ≠ []) :
    orText (some a) b = a := by
  rw [orText, orElse_of_ne_nil none ha, Option.getD_some]

@[simp] theorem withIds_applicationId {a : Str} (u d s : Str) (ha : a ≠ []) :
    (payload.withIds a u d s).applicationId = a := by
  rw [applicationId, withIds, orElse_of_ne_nil _ ha, orText_of_ne_nil _ ha]

@[simp] theorem withIds_effectiveUserId {u : Str} (a d s : Str) (hu : u ≠ []) :
    (payload.withIds a u d s).effectiveUserId = u := by
  rw [effectiveUserId, userId, withIds, orElse_of_ne_nil _ hu,
    orText_of_ne_nil _ hu]

@[simp] theorem withIds_sessionId (a u d s : Str) :
    (payload.withIds a u d s).session.sessionId = s := rfl

@[simp] theorem withIds_messageText (a u d s : Str) :
    (payload.withIds a u d s).messageText = payload.messageText := rfl

@[simp] theorem withIds_effectiveDeviceId {d : Str} (a u : Str) {s : Str}
    (hd : d ≠ [] ∨ s = []) :
    (payload.withIds a u d s).effectiveDeviceId = d := by
  rcases d with _ | ⟨c, cs⟩
  · exact hd.resolve_left fun h => h rfl
  · exact orText_of_ne_nil s (List.cons_ne_nil c cs)

theorem requestKey_eq (payload : AliceWebhookRequest) :
    payload.requestKey =
      payload.applicationId ++ ':' :: (payload.effectiveUserId ++
        ':' :: (payload.session.sessionId ++ ':' :: payload.messageText)) := by
  show [':'].intercalate [_, _, _, _] = _
  simp [effectiveUserId, messageText]

theorem conversationKey_eq (payload : AliceWebhookRequest) :
    payload.conversationKey =
      payload.applicationId ++ ':' :: (payload.effectiveUserId ++
        ':' :: (payload.effectiveDeviceId ++
          ':' :: payload.session.sessionId)) := by
  show [':'].intercalate [_, _, _, _] = _
  simp [effectiveUserId, effectiveDeviceId, buildUserScope]

namespace Isolated

/-- A colon of the session id could belong to the user id. -/
theorem session (h : payload.Isolated) : ':' ∉ payload.session.sessionId := by
  intro hmem
  obtain ⟨s₀, s₁, hs⟩ := List.append_of_mem hmem
  have ha := payload.applicationId_ne_nil
  have hsame := h.request (payload.withIds payload.applicationId
    (payload.effectiveUserId ++ ':' :: s₀) [] s₁)
    (by simp [requestKey_eq, ha, hs])
  have hlen := congrArg List.length (hsame.2.2.1.trans hs)
  simp at hlen
  omega

/-- A colon of the application id could end it earlier. -/
theorem application (h : payload.Isolated) :
    ':' ∉ payload.applicationId.tail := by
  intro hmem
  obtain ⟨c, cs, ha⟩ :=
    List.exists_cons_of_ne_nil payload.applicationId_ne_nil
  rw [ha, List.tail_cons] at hmem
  obtain ⟨a₀, a₁, rfl⟩ := List.append_of_mem hmem
  have hsame := h.request (payload.withIds (c :: a₀)
    (a₁ ++ ':' :: payload.effectiveUserId) [] payload.session.sessionId)
    (by simp [requestKey_eq, ha])
  have hlen := congrArg List.length (hsame.1.trans ha)
  simp at hlen

/-- A colon of the user id could belong to the application id or to the session
id, unless nothing else is in the user id. -/
theorem user (h : payload.Isolated) :
    ':' ∉ payload.effectiveUserId ∨ payload.effectiveUserId = [':'] := by
  by_contra hnot
  obtain ⟨hmem, hcolon⟩ := not_or.mp hnot
  obtain ⟨u₀, u₁, hu⟩ := List.append_of_mem (not_not.mp hmem)
  have ha := payload.applicationId_ne_nil
  by_cases hu₁ : u₁ = []
  · subst hu₁
    have hu₀ : u₀ ≠ [] := by
      rintro rfl
      exact hcolon hu
    have hsame := h.request (payload.withIds payload.applicationId u₀ []
      (':' :: payload.session.sessionId))
      (by simp [requestKey_eq, ha, hu₀, hu])
    exact absurd hsame.2.2.1 (List.cons_ne_self ':' _)
  · have hsame := h.request (payload.withIds
      (payload.applicationId ++ ':' :: u₀) u₁ [] payload.session.sessionId)
      (by simp [requestKey_eq, hu₁, hu])
    have hlen := congrArg List.length hsame.1
    simp at hlen

/-- A colon of the device id could belong to the user id or to the session id,
unless nothing else is in the device id and the session has a name. -/
theorem device (h : payload.Isolated) :
    ':' ∉ payload.effectiveDeviceId ∨
      payload.effectiveDeviceId = [':'] ∧ payload.session.sessionId ≠ [] := by
  by_contra hnot
  obtain ⟨hmem, hcolon⟩ := not_or.mp hnot
  obtain ⟨d₀, d₁, hd⟩ := List.append_of_mem (not_not.mp hmem)
  have ha := payload.applicationId_ne_nil
  have hu := payload.effectiveUserId_ne_nil
  by_cases hd₁ : d₁ ≠ [] ∨ payload.session.sessionId = []
  · have hsame := h.conversation (payload.withIds payload.applicationId
      (payload.effectiveUserId ++ ':' :: d₀) d₁ payload.session.sessionId)
      (by simp [conversationKey_eq, ha, hd, hd₁])
    have hlen := congrArg List.length hsame.2.1
    simp at hlen
  · obtain ⟨hnil, hsession⟩ := not_or.mp hd₁
    obtain rfl := not_not.mp hnil
    have hd₀ : d₀ ≠ [] := by
      rintro rfl
      exact hcolon ⟨hd, hsession⟩
    have hsame := h.conversation (payload.withIds payload.applicationId
      payload.effectiveUserId d₀ (':' :: payload.session.sessionId))
      (by simp [conversationKey_eq, ha, hu, hd, hd₀])
    exact absurd hsame.2.2.2 (List.cons_ne_self ':' _)

end Isolated

/-- A payload shares its keys with no other user, device, session or message if
and only if its ids are unambiguous. -/
theorem isolated_iff (payload : AliceWebhookRequest) :
    payload.Isolated ↔ payload.Unambiguous := by
  constructor
  · intro h
    exact ⟨h.application, h.user, h.session, h.device⟩
  · intro h
    exact ⟨fun _ => h.request, fun _ => h.conversation⟩

/-- Two users of one skill whose keys are the same: the colon of the first
application id is the separator of the second. -/
theorem keys_collide :
    let message := utter 1 "что такое кит"
    let one := message.withIds "a:b".toList "c".toList "d".toList "s".toList
    let two := message.withIds "a".toList "b:c".toList "d".toList "s".toList
    one.requestKey = two.requestKey ∧
      one.conversationKey = two.conversationKey ∧
      one.applicationId ≠ two.applicationId ∧
      one.effectiveUserId ≠ two.effectiveUserId := by
  decide

end AliceWebhookRequest

end AliceSkill
