import AliceSkill.Concurrent.Calls
import AliceSkill.Services.Inputs
import Mathlib.Data.List.Forall2

/-!
# The window of the history

Every appended turn trims the history of its conversation.  In any run in which
the history does not expire it is what appending the turns one after the other
leaves, and that is the last turns as long as the limit is at least one.  With
the limit zero the trimming command keeps the whole list.
-/

namespace AliceSkill

open Text Effects Program Machine

/-! ## Ranges from the end -/

section Ranges

variable {α : Type}

theorem redisRange_all (xs : List α) : redisRange 0 (-1) xs = xs := by
  rcases xs with _ | ⟨x, xs⟩
  · rfl
  · have hlen : ((x :: xs).length : ℤ) = xs.length + 1 := by simp
    simp only [redisRange, hlen]
    rw [if_neg (by omega), List.take_of_length_le]
    · rfl
    · rw [List.length_drop, List.length_cons]
      omega

theorem redisRange_last {L : ℤ} (hL : 1 ≤ L) (xs : List α) :
    redisRange (-L) (-1) xs = xs.rtake L.toNat := by
  have hneg : -L < 0 := by omega
  simp only [redisRange, if_pos hneg, List.rtake]
  rcases xs with _ | ⟨x, xs⟩
  · simp
  · have hlen : ((x :: xs).length : ℤ) = xs.length + 1 := by simp
    rw [if_neg (by omega), List.take_of_length_le]
    · congr 1
      omega
    · rw [List.length_drop]
      omega

theorem sliceFrom_neg {n : ℕ} (hn : 0 < n) (xs : List α) :
    sliceFrom (-n) xs = xs.rtake n := by
  rw [sliceFrom, if_pos (by omega), List.rtake]
  congr 1
  omega

theorem rtake_rtake (m n : ℕ) (xs : List α) :
    (xs.rtake n).rtake m = xs.rtake (min m n) := by
  simp only [List.rtake_eq_reverse_take_reverse, List.reverse_reverse,
    List.take_take]

/-- Trimming before an append does not change what is left after it. -/
theorem rtake_append (n : ℕ) (xs : List α) (x : α) :
    (xs.rtake n ++ [x]).rtake n = (xs ++ [x]).rtake n := by
  rcases n with _ | n
  · rw [List.rtake_zero, List.rtake_zero]
  · rw [List.rtake_concat_succ, List.rtake_concat_succ, rtake_rtake,
      min_eq_left (Nat.le_succ n)]

end Ranges

/-! ## Appending turns -/

/-- The stores after the turns have been appended one after the other. -/
def appendAll (cfg : Settings) (key : Str) (turns : List ConversationTurn)
    (w : World) : World :=
  turns.foldl (fun w turn => ((PortCall.appendTurn key turn).exec cfg .ok w).2) w

section Appending

variable {cfg : Settings} {key : Str} {w : World}

theorem appendAll_concat (turns : List ConversationTurn)
    (turn : ConversationTurn) :
    (appendAll cfg key (turns ++ [turn]) w).history key =
      redisRange (-cfg.sessionTurnLimit) (-1)
        ((appendAll cfg key turns w).history key ++ [turn]) := by
  rw [appendAll, List.foldl_append, List.foldl_cons, List.foldl_nil]
  exact World.updateAt_same _ _ _

/-- With a limit of at least one the last turns are left. -/
theorem history_appendAll (hlimit : 1 ≤ cfg.sessionTurnLimit)
    (hw : w.history key = []) (turns : List ConversationTurn) :
    (appendAll cfg key turns w).history key =
      turns.rtake cfg.sessionTurnLimit.toNat := by
  induction turns using List.reverseRecOn with
  | nil => rw [List.rtake_nil, appendAll, List.foldl_nil, hw]
  | append_singleton turns turn ih =>
      rw [appendAll_concat, ih, redisRange_last hlimit, rtake_append]

/-- With the limit zero every turn is left. -/
theorem history_appendAll_of_zero (hlimit : cfg.sessionTurnLimit = 0)
    (hw : w.history key = []) (turns : List ConversationTurn) :
    (appendAll cfg key turns w).history key = turns := by
  induction turns using List.reverseRecOn with
  | nil => rw [appendAll, List.foldl_nil, hw]
  | append_singleton turns turn ih =>
      rw [appendAll_concat, ih, hlimit, Int.neg_zero, redisRange_all]

end Appending

/-! ## What the model is shown -/

/-- The item sends the turn: a turn of the user as a text, one of the assistant
as an output text, and one of the system as an instruction with some words
before its text. -/
def InputItem.Sends (item : InputItem) (turn : ConversationTurn) : Prop :=
  match turn.role with
  | .user => item = ⟨.user, .text turn.content⟩
  | .assistant => item = ⟨.assistant, .outputText turn.content⟩
  | .system => ∃ words, item = ⟨.developer, .text (words ++ turn.content)⟩

theorem inputItem_sends (turn : ConversationTurn) :
    (inputItem turn).Sends turn := by
  obtain ⟨role, content⟩ := turn
  cases role
  · rfl
  · rfl
  · exact ⟨_, rfl⟩

/-- The history of the conversation is a window on the appended turns, and so
is what the model is shown of it. -/
structure Windowed (cfg : Settings) (key : Str) (w : World)
    (turns : List ConversationTurn) : Prop where
  history : ∀ a, ((PortCall.getHistory key).exec cfg a w).1 =
    .ok (turns.rtake cfg.sessionTurnLimit.toNat)
  inputs : ∀ a history, ((PortCall.getHistory key).exec cfg a w).1 = .ok history →
    ∀ systemPrompt userText currentUtc clock, ∃ items,
      buildInputItems systemPrompt history userText currentUtc clock =
        [⟨.developer, .text (buildDeveloperPrompt systemPrompt
          (currentUtc.getD clock))⟩] ++ items ++ [⟨.user, .text userText⟩] ∧
      List.Forall₂ InputItem.Sends items
        (turns.rtake (min 8 cfg.sessionTurnLimit.toNat))

section Window

variable {cfg : Settings} {key : Str} {w : World}
variable {turns : List ConversationTurn}

theorem windowed_of_history
    (h : w.history key = turns.rtake cfg.sessionTurnLimit.toNat) :
    Windowed cfg key w turns := by
  have hget : ∀ a, ((PortCall.getHistory key).exec cfg a w).1 =
      .ok (turns.rtake cfg.sessionTurnLimit.toNat) := by
    intro a
    rw [PortCall.exec, redisRange_all, h]
  refine ⟨hget, fun a history hhistory => ?_⟩
  intro systemPrompt userText currentUtc clock
  rw [hget, Except.ok.injEq] at hhistory
  refine ⟨(sliceFrom (-8) history).map inputItem, rfl, ?_⟩
  have hlast : sliceFrom (-8) history = history.rtake 8 :=
    sliceFrom_neg (by decide : 0 < 8) history
  rw [hlast, ← hhistory, rtake_rtake, List.forall₂_map_left_iff]
  exact List.forall₂_same.mpr fun turn _ => inputItem_sends turn

/-- The window is right unless the limit is zero and a turn was appended. -/
theorem windowed_iff_of_history (hlimit : 0 ≤ cfg.sessionTurnLimit)
    {w₀ : World} (hw₀ : w₀.history key = [])
    (h : w.history key = (appendAll cfg key turns w₀).history key) :
    Windowed cfg key w turns ↔ 1 ≤ cfg.sessionTurnLimit ∨ turns = [] := by
  constructor
  · intro hwindow
    by_contra hnot
    rw [not_or] at hnot
    have hzero : cfg.sessionTurnLimit = 0 := by omega
    have hget := hwindow.history .ok
    rw [PortCall.exec, redisRange_all, h, history_appendAll_of_zero hzero hw₀,
      hzero, Int.toNat_zero, List.rtake_zero, Except.ok.injEq] at hget
    exact hnot.2 hget
  · rintro (hone | hnil)
    · exact windowed_of_history (h.trans (history_appendAll hone hw₀ turns))
    · subst hnil
      refine windowed_of_history ?_
      rw [h, List.rtake_nil, appendAll, List.foldl_nil, hw₀]

end Window

/-! ## Runs -/

/-- The turn a call adds to the history of the conversation. -/
def appendedBy (key : Str) :
    Event CallSig PyException → Option ConversationTurn
  | ⟨_, .port (.appendTurn k turn), .ok _⟩ =>
      if k = key then some turn else none
  | _ => none

/-- The turns appended to the history of the conversation so far. -/
def appendedTurns (key : Str) (log : List (Event CallSig PyException)) :
    List ConversationTurn :=
  log.reverse.filterMap (appendedBy key)

/-- A turn with the thread that appended it. -/
abbrev SignedTurn := ℕ × ConversationTurn

/-- The turns appended to the history of the conversation, oldest first. -/
def signedTurns (key : Str) (log : List (Event CallSig PyException)) :
    List SignedTurn :=
  log.reverse.filterMap fun e => (appendedBy key e).map fun turn => (e.tid, turn)

/-- The history of the conversation does not expire. -/
def KeepsHistory (key : Str) (_ : StoreState) (act : Schedule) : Prop :=
  act ≠ .ambient (.history key)

instance (key : Str) (s : StoreState) :
    (act : Schedule) → Decidable (KeepsHistory key s act)
  | .spawn _ => .isTrue nofun
  | .step _ _ => .isTrue nofun
  | .ambient e => decidable_of_iff (e ≠ .history key) (by simp [KeepsHistory])

section Runs

variable {cfg : Settings} {key : Str} {w : World}

theorem appendedTurns_cons (e : Event CallSig PyException)
    (log : List (Event CallSig PyException)) :
    appendedTurns key (e :: log) =
      appendedTurns key log ++ (appendedBy key e).toList := by
  have hone : [e].filterMap (appendedBy key) = (appendedBy key e).toList := by
    cases h : appendedBy key e <;> simp [h]
  rw [appendedTurns, List.reverse_cons, List.filterMap_append, hone]
  rfl

theorem signedTurns_cons (key : Str) (e : Event CallSig PyException)
    (log : List (Event CallSig PyException)) :
    signedTurns key (e :: log) = signedTurns key log ++
      ((appendedBy key e).map fun turn => (e.tid, turn)).toList := by
  have hone : ([e].filterMap fun e => (appendedBy key e).map fun turn =>
      (e.tid, turn)) =
        ((appendedBy key e).map fun turn => (e.tid, turn)).toList := by
    cases h : appendedBy key e <;> simp [h]
  rw [signedTurns, List.reverse_cons, List.filterMap_append, hone]
  rfl

/-- A signed turn was appended by the thread that signs it. -/
theorem event_of_signedTurns {i : ℕ} {turn : ConversationTurn}
    {log : List (Event CallSig PyException)}
    (h : (i, turn) ∈ signedTurns key log) : ∃ e ∈ log, e.tid = i := by
  obtain ⟨e, he, hmap⟩ := List.mem_filterMap.mp h
  obtain ⟨turn', -, heq⟩ := Option.map_eq_some_iff.mp hmap
  cases heq
  exact ⟨e, List.mem_reverse.mp he, rfl⟩

theorem op_of_appendedBy {e : Event CallSig PyException}
    {turn : ConversationTurn} (h : appendedBy key e = some turn) :
    e.op = .port (.appendTurn key turn) := by
  unfold appendedBy at h
  split at h
  · split at h
    · next hkey =>
      cases h
      rw [hkey]
    · cases h
  · cases h

theorem fault_of_appendedBy {a : Answer} {op : Call} {tid : ℕ}
    {turn : ConversationTurn}
    (h : appendedBy key ⟨tid, op, (execCall cfg a op w).1⟩ = some turn) :
    a.fault = none := by
  rcases hfault : a.fault with _ | e
  · rfl
  · have hop : op = .port (.appendTurn key turn) := op_of_appendedBy h
    subst hop
    rw [execCall_fault hfault] at h
    cases h

theorem appendedBy_of_fault {a : Answer} (hfault : a.fault = none) (tid : ℕ)
    (turn : ConversationTurn) :
    appendedBy key ⟨tid, .port (.appendTurn key turn),
      (execCall cfg a (.port (.appendTurn key turn)) w).1⟩ = some turn := by
  rw [execCall_port hfault]
  exact if_pos rfl

/-- A call that appends no turn to the history leaves it alone. -/
theorem history_of_other {a : Answer} {op : Call} {tid : ℕ}
    (h : appendedBy key ⟨tid, op, (execCall cfg a op w).1⟩ = none) :
    (execCall cfg a op w).2.history key = w.history key := by
  rcases @history_cases cfg a w op with hsame | ⟨hfault, k, turn, rfl⟩
  · rw [hsame]
  · rw [execCall_port hfault] at h ⊢
    have hkey : k ≠ key := by
      rintro rfl
      simp [appendedBy, PortCall.exec] at h
    exact World.updateAt_ne _ _ hkey.symm

/-- A call that appends a turn trims the history. -/
theorem history_of_append {a : Answer} {op : Call} {tid : ℕ}
    {turn : ConversationTurn}
    (h : appendedBy key ⟨tid, op, (execCall cfg a op w).1⟩ = some turn) :
    (execCall cfg a op w).2.history key =
      redisRange (-cfg.sessionTurnLimit) (-1) (w.history key ++ [turn]) := by
  have hfault : a.fault = none := fault_of_appendedBy h
  have hop : op = .port (.appendTurn key turn) := op_of_appendedBy h
  subst hop
  rw [execCall_port hfault]
  exact World.updateAt_same _ _ _

/-- The history is what the appended turns leave. -/
theorem history_of_reachable {w₀ : World} {s : StoreState}
    (hs : (storeMachine cfg anyAnswer).Reachable (KeepsHistory key) w₀ s) :
    s.world.history key =
      (appendAll cfg key (appendedTurns key s.log) w₀).history key := by
  refine hs.invariant (I := fun s => s.world.history key =
    (appendAll cfg key (appendedTurns key s.log) w₀).history key) rfl ?_
  intro s s' act _ ih hkeeps hst
  rcases step_cases hst with ⟨l, -, -, rfl⟩ |
    ⟨tid, a, l, op, k, -, hget, -, rfl⟩ | ⟨e, rfl, rfl⟩
  · exact ih
  · simp only [afterCall, appendedTurns_cons]
    rcases happ : appendedBy key
        ⟨tid, op, (execCall cfg a op s.world).1⟩ with _ | turn
    · rw [history_of_other happ, ih, Option.toList_none, List.append_nil]
    · rw [history_of_append happ, ih, Option.toList_some, appendAll_concat]
  · rcases e with key' | key' | key'
    · exact ih
    · exact ih
    · have hkey : key ≠ key' := by
        rintro rfl
        exact hkeeps rfl
      rw [← ih]
      exact World.updateAt_ne _ _ hkey

end Runs

/-- The window is right in every sequence of appended turns, and in every run in
which the history does not expire, if and only if the limit is not zero or
nothing was appended. -/
theorem history_window_iff {cfg : Settings} (hlimit : 0 ≤ cfg.sessionTurnLimit)
    (key : Str) {w₀ : World} (hempty : w₀.history key = []) :
    (∀ turns, Windowed cfg key (appendAll cfg key turns w₀) turns ↔
      1 ≤ cfg.sessionTurnLimit ∨ turns = []) ∧
    ∀ s, (storeMachine cfg anyAnswer).Reachable (KeepsHistory key) w₀ s →
      (Windowed cfg key s.world (appendedTurns key s.log) ↔
        1 ≤ cfg.sessionTurnLimit ∨ appendedTurns key s.log = []) := by
  constructor
  · intro turns
    exact windowed_iff_of_history hlimit hempty rfl
  · intro s hs
    exact windowed_iff_of_history hlimit hempty (history_of_reachable hs)

/-- With the limit one the window is the last turn: the model is shown the answer
to a question, and no longer the question. -/
theorem last_turn_window :
    let cfg := { Settings.default with sessionTurnLimit := 1 }
    let payload := utter 1 "что такое кит"
    (∀ turns, Windowed cfg payload.conversationKey
      (appendAll cfg payload.conversationKey turns World.empty) turns) ∧
    ∃ s : StoreState, (storeMachine cfg anyAnswer).Reachable
        (KeepsHistory payload.conversationKey) World.empty s ∧
      appendedTurns payload.conversationKey s.log =
        [⟨.user, "что такое кит".toList⟩, ⟨.assistant, "Кит.".toList⟩] ∧
      s.world.history payload.conversationKey = [⟨.assistant, "Кит.".toList⟩] ∧
      Windowed cfg payload.conversationKey s.world
        [⟨.user, "что такое кит".toList⟩, ⟨.assistant, "Кит.".toList⟩] := by
  intro cfg payload
  have hlimit : 0 ≤ cfg.sessionTurnLimit := by decide
  have hempty : World.empty.history payload.conversationKey = [] := rfl
  have h := history_window_iff hlimit payload.conversationKey hempty
  refine ⟨fun turns => (h.1 turns).mpr (Or.inl (by decide)), ?_⟩
  have hrun : ((storeMachine cfg anyAnswer).runFrom
      (KeepsHistory payload.conversationKey) (initial World.empty)
      [.spawn (.request payload), .step 0 .ok, .step 0 .ok, .step 0 .ok,
        .step 0 (.replies "Кит.".toList), .step 0 .ok, .step 0 .ok]).map (fun s =>
        (appendedTurns payload.conversationKey s.log,
          s.world.history payload.conversationKey)) =
      some ([⟨.user, "что такое кит".toList⟩, ⟨.assistant, "Кит.".toList⟩],
        [⟨.assistant, "Кит.".toList⟩]) := by
    decide +kernel
  obtain ⟨s, hs, hobs⟩ := Option.map_eq_some_iff.mp hrun
  obtain ⟨hturns, hhistory⟩ := Prod.mk.inj hobs
  have hreach := reachable_runFrom .start hs
  refine ⟨s, hreach, hturns, hhistory, ?_⟩
  rw [← hturns]
  exact (h.2 s hreach).mpr (Or.inl (by decide))

/-- With the limit zero a turn stays that should be gone. -/
theorem limit_zero_keeps_turn :
    let cfg := { Settings.default with sessionTurnLimit := 0 }
    let turns : List ConversationTurn := [⟨.user, "что такое кит".toList⟩]
    0 ≤ cfg.sessionTurnLimit ∧ ¬Windowed cfg "key".toList
      (appendAll cfg "key".toList turns World.empty) turns := by
  intro cfg turns
  refine ⟨by decide, fun h => ?_⟩
  have hget := h.history .ok
  exact absurd (Except.ok.inj hget) (by decide)

end AliceSkill
