import AliceSkill.Services.Reply
import AliceSkill.Text.Collapsing

/-!
# Follow-up markers

What `extractFollowupRequest` finds in any text.  A marker is an opening with
the next closing behind it; what stands between them is its body.  The request
is made of the last body of which something is left after stripping, and it is
as clean as that body: an opening inside the body stays in the request.
-/

namespace AliceSkill

open Text

/-! ## Markers -/

def markerClosing : Str := "]]".toList

/-- The rest behind a marker at the beginning of a text, and the body of the
marker. -/
def readMarker (t : Str) : Option (Str × Str) :=
  if markerOpening <+: t then
    (breakAt markerClosing (t.drop markerOpening.length)).map fun found =>
      (found.2, found.1)
  else none

/-- The bodies of the markers of a text, left to right. -/
def markerBodies (t : Str) : List Str := readings readMarker t

/-- Something is left of the body when spaces and hyphens are stripped. -/
def asksSomething (body : Str) : Bool :=
  body.any fun ch => !isSpace ch && ch != '-'

/-- The body the request is made of. -/
def lastBody (t : Str) : Option Str :=
  (markerBodies t).reverse.find? asksSomething

/-- What stands behind an opening decides about the match. -/
theorem head_followupMarker (before after : Str) :
    (followupMarker.ends ⟨before, after, []⟩).head?.map
        (fun d => (d.after, d.groups)) =
      (readMarker after).map fun found => (found.1, [(1, strip found.2)]) := by
  have hpadded := @head_padded isSpace ']' [']'] (by decide) 1
    ((⟨before, after, []⟩ : Cursor).skip markerOpening.length)
  rw [followupMarker, Regex.head_seq, Regex.ends_lit, readMarker]
  split
  · rw [List.findSome?_singleton, Option.map_map]
    exact hpadded
  · rfl

theorem readMarker_length {t rest body : Str}
    (h : readMarker t = some (rest, body)) : rest.length < t.length := by
  rw [readMarker] at h
  split_ifs at h with hopening
  obtain ⟨found, hfound, heq⟩ := Option.map_eq_some_iff.mp h
  cases heq
  obtain ⟨hsplit, -⟩ := breakAt_eq_some hfound
  have hlength := congrArg List.length hsplit
  have hclosing : markerClosing.length = 2 := rfl
  simp only [List.length_drop, List.length_append, hclosing] at hlength
  have hle := hopening.length_le
  have hsize : markerOpening.length = 19 := rfl
  omega

theorem reads_followupMarker :
    Reads followupMarker (·.group 1) (mapReader strip readMarker) := by
  intro before after
  have hhead := head_followupMarker before after
  rw [matchAt_of_head]
  · rw [mapReader]
    cases hread : readMarker after with
    | none =>
        rw [hread, Option.map_none, Option.map_eq_none_iff] at hhead
        rw [hhead]
        rfl
    | some found =>
        rw [hread] at hhead
        obtain ⟨d, hd, heq⟩ := Option.map_eq_some_iff.mp hhead
        simp only [Prod.mk.injEq] at heq
        rw [hd]
        show some (d.after, (d.groups.lookup 1).getD []) = _
        rw [heq.1, heq.2]
        rfl
  · intro c hc
    rw [hc, Option.map_some] at hhead
    obtain ⟨found, hread, heq⟩ := Option.map_eq_some_iff.mp hhead.symm
    simp only [Prod.mk.injEq] at heq
    rw [← heq.1]
    exact readMarker_length hread

/-- The rest of a text that begins with an opening. -/
def readFragment (t : Str) : Option (Str × Unit) :=
  if markerOpening <+: t then some ([], ()) else none

theorem reads_followupMarkerFragment :
    Reads followupMarkerFragment (fun _ => ()) readFragment := by
  intro before after
  have hall : ∀ c : Cursor, c.after.takeWhile (fun _ => true) = c.after :=
    fun c => List.takeWhile_eq_self_iff.mpr fun _ _ => rfl
  have hend : ∀ c : Cursor, ((Regex.seq (.star anyChar) .eos).ends c).head? =
      some (c.skip c.after.length) := by
    intro c
    rw [Regex.head_seq, anyChar, Regex.ends_star_cls, hall, List.findSome?_map,
      List.range_succ, List.reverse_append, List.reverse_singleton,
      List.singleton_append, List.findSome?_cons]
    simp [Regex.ends]
  have hhead : (followupMarkerFragment.ends ⟨before, after, []⟩).head? =
      if markerOpening <+: after then
        some ((⟨before, after, []⟩ : Cursor).skip after.length) else none := by
    rw [followupMarkerFragment, Regex.head_seq, Regex.ends_lit]
    split
    · next hopening =>
      have hle := hopening.length_le
      rw [List.findSome?_singleton, hend, Cursor.skip_skip, Cursor.skip_after,
        List.length_drop, Nat.add_sub_cancel' hle]
    · rfl
  rw [matchAt_of_head]
  · rw [hhead, readFragment]
    split
    · simp
    · rfl
  · intro c hc
    rw [hhead] at hc
    split_ifs at hc with hopening
    cases hc
    have hle := hopening.length_le
    have hsize : markerOpening.length = 19 := rfl
    simp only [Cursor.skip_after, List.drop_length, List.length_nil]
    omega

/-! ## Visible text -/

/-- Nothing from the first opening on is left. -/
theorem not_infix_rewriteFragment (t : Str) :
    ¬markerOpening <:+: rewriteBy readFragment (fun _ => []) t ∧
      rewriteBy readFragment (fun _ => []) t <+: t := by
  have hconsumes := reads_followupMarkerFragment.consumes
  induction t with
  | nil =>
      rw [rewriteBy_nil hconsumes]
      exact ⟨by decide, List.nil_prefix⟩
  | cons ch t ih =>
      by_cases hopening : markerOpening <+: ch :: t
      · have hread : readFragment (ch :: t) = some ([], ()) := if_pos hopening
        rw [rewriteBy_some hconsumes hread, rewriteBy_nil hconsumes]
        exact ⟨by decide, List.nil_prefix⟩
      · have hread : readFragment (ch :: t) = none := if_neg hopening
        obtain ⟨hclean, hhere⟩ := ih
        have hkept : ch :: rewriteBy readFragment (fun _ => []) t <+: ch :: t :=
          List.cons_prefix_cons.mpr ⟨rfl, hhere⟩
        rw [rewriteBy_cons_none hconsumes hread]
        refine ⟨?_, hkept⟩
        rw [List.infix_cons_iff]
        rintro (hfirst | hlater)
        · exact hopening (hfirst.trans hkept)
        · exact hclean hlater

theorem visible_clean (rawText : Str) :
    ¬markerOpening <:+: (extractFollowupRequest rawText).1 := by
  intro h
  have hfragment : ∀ t, followupMarkerFragment.subConst [] t =
      rewriteBy readFragment (fun _ => []) t := by
    intro t
    refine reads_followupMarkerFragment.sub ?_ t
    exact fun _ => rfl
  have hwithin := h.trans (List.rdropWhile_prefix isSpace _).isInfix
  rw [hfragment] at hwithin
  exact (not_infix_rewriteFragment _).1 hwithin

/-! ## Requests -/

/-- A text that may be queued as a question of the user. -/
structure CleanRequest (request : Str) : Prop where
  ne_nil : request ≠ []
  head : ∀ ch ∈ request.head?, ch ≠ ' ' ∧ ch ≠ '-'
  last : ∀ ch ∈ request.getLast?, ch ≠ ' ' ∧ ch ≠ '-'
  spaced : Spaced request
  unmarked : ¬markerOpening <:+: request

/-- What the extraction is to return. -/
def Extracted (out : Str × Option Str) : Prop :=
  ¬markerOpening <:+: out.1 ∧
    ∀ request, out.2 = some request → CleanRequest request

/-- The body the request is made of has no opening in it. -/
def Unnested (rawText : Str) : Prop :=
  ∀ body, lastBody rawText = some body → ¬markerOpening <:+: body

instance (rawText : Str) : Decidable (Unnested rawText) :=
  match h : lastBody rawText with
  | none => .isTrue (by simp [Unnested, h])
  | some body => decidable_of_iff (¬markerOpening <:+: body)
      (by simp [Unnested, h])

/-- The request made of a body. -/
def requestOf (body : Str) : Str :=
  stripBy (oneOf " -") (collapseSpaces (strip body))

theorem requestOf_ne_nil (body : Str) :
    requestOf body ≠ [] ↔ asksSomething body = true := by
  rw [requestOf, stripBy_ne_nil, asksSomething, List.any_eq_true]
  constructor
  · rintro ⟨ch, hmem, hch⟩
    have hnot : ch ≠ ' ' ∧ ch ≠ '-' := by simpa [oneOf] using hch
    have hspace : ¬isSpace ch := fun h =>
      hnot.1 ((spaced_collapseSpaces _).1 ch hmem h)
    refine ⟨ch, ?_, by simp [hspace, hnot.2]⟩
    rwa [mem_collapseSpaces hspace, strip, mem_stripBy hspace] at hmem
  · rintro ⟨ch, hmem, hch⟩
    have hnot : ¬isSpace ch ∧ ch ≠ '-' := by simpa using hch
    have hother : ¬oneOf " -" ch := by
      have hne : ch ≠ ' ' := by
        rintro rfl
        exact hnot.1 (by decide)
      simp [oneOf, hne, hnot.2]
    refine ⟨ch, ?_, hother⟩
    rw [mem_collapseSpaces hnot.1, strip, mem_stripBy hnot.1]
    exact hmem

/-- The request is made of the last body that asks something. -/
theorem extractFollowupRequest_request (rawText : Str) :
    (extractFollowupRequest rawText).2 = (lastBody rawText).map requestOf := by
  have hgroups : (followupMarker.finditer rawText).map (·.group 1) =
      (markerBodies rawText).map strip := by
    rw [reads_followupMarker.finditer, readings_mapReader]
    rfl
  have hcandidates : (followupMarker.finditer rawText).reverse.map (fun m =>
      stripBy (oneOf " -") (collapseSpaces (m.group 1))) =
        (markerBodies rawText).reverse.map requestOf := by
    have hmap := congrArg (List.map fun group =>
      stripBy (oneOf " -") (collapseSpaces group)) hgroups
    rw [List.map_map, List.map_map] at hmap
    rw [List.map_reverse, List.map_reverse]
    exact congrArg List.reverse hmap
  have hasks : (fun request => decide (request ≠ [])) ∘ requestOf =
      asksSomething := by
    funext body
    rw [Function.comp_apply, Bool.eq_iff_iff, decide_eq_true_iff]
    exact requestOf_ne_nil body
  rw [extractFollowupRequest, lastBody]
  simp only [hcandidates, List.find?_map, hasks]

theorem infix_requestOf (body : Str) :
    markerOpening <:+: requestOf body ↔ markerOpening <:+: body := by
  have hne : markerOpening ≠ [] := by decide
  have hword : Word markerOpening := by
    have hall : markerOpening.all (fun ch => !isSpace ch) = true := by decide
    simpa [Word] using hall
  rw [requestOf, infix_stripBy hne (by decide +revert) (by decide +revert),
    infix_collapseSpaces hword hne, strip,
    infix_stripBy hne (by decide +revert) (by decide +revert)]

theorem cleanRequest_requestOf {body : Str} (h : asksSomething body = true)
    (hunmarked : ¬markerOpening <:+: body) : CleanRequest (requestOf body) := by
  have hne := (requestOf_ne_nil body).mpr h
  have hends : ∀ ch, ¬oneOf " -" ch → ch ≠ ' ' ∧ ch ≠ '-' := by
    intro ch hch
    simpa [oneOf] using hch
  constructor
  · exact hne
  · intro ch hch
    rw [List.head?_eq_some_head hne] at hch
    cases hch
    exact hends _ (stripBy_head hne)
  · intro ch hch
    rw [List.getLast?_eq_some_getLast hne] at hch
    cases hch
    exact hends _ (stripBy_getLast hne)
  · exact (spaced_collapseSpaces _).within (stripBy_within _ _)
  · rwa [infix_requestOf]

/-- The extraction keeps its promise exactly when the body that the request is
made of has no further opening in it. -/
theorem extracted_iff (rawText : Str) :
    Extracted (extractFollowupRequest rawText) ↔ Unnested rawText := by
  rw [Extracted, Unnested, extractFollowupRequest_request]
  constructor
  · rintro ⟨-, hclean⟩ body hbody
    rw [← infix_requestOf]
    exact (hclean _ (by rw [hbody]; rfl)).unmarked
  · intro hunnested
    refine ⟨visible_clean rawText, fun request hrequest => ?_⟩
    obtain ⟨body, hbody, rfl⟩ := Option.map_eq_some_iff.mp hrequest
    exact cleanRequest_requestOf (List.find?_some hbody) (hunnested body hbody)

/-- What the service gets from the model is what has been extracted. -/
theorem continuationRequest_prepareLlmReply {rawText request : Str}
    (h : (prepareLlmReply rawText).continuationRequest = some request) :
    (extractFollowupRequest rawText).2 = some request := by
  rw [prepareLlmReply] at h
  simp only at h
  split at h
  · exact h
  · cases h

end AliceSkill
