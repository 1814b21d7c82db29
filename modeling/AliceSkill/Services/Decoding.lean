import AliceSkill.Services.Followups

/-!
# Decoding of follow-up markers

A text with markers in it is taken apart into what it was put together from:
the segments around the markers are seen by the user, and the request is made
of the last body of which something is left.
-/

namespace AliceSkill

open Text

/-- A text with markers: a first segment, and for each marker its body and the
segment behind it. -/
def withMarkers (first : Str) (marked : List (Str × Str)) : Str :=
  first ++ marked.flatMap fun m =>
    markerOpening ++ (m.1 ++ (markerClosing ++ m.2))

/-- The segments of such a text, without the markers. -/
def segments (first : Str) (marked : List (Str × Str)) : Str :=
  first ++ marked.flatMap Prod.snd

/-- The body of a marker ends at the closing behind it.  An opening in the body
does not matter. -/
def Closes (body : Str) : Prop :=
  ¬markerClosing <:+: body ∧ ∀ ch ∈ body.getLast?, ch ≠ ']'

instance (body : Str) : Decidable (Closes body) :=
  decidable_of_iff (¬markerClosing <:+: body ∧ body.getLast? ≠ some ']')
    (and_congr_right fun _ =>
      ⟨fun h _ hch hne => h (hne ▸ hch), fun h hsome => h ']' hsome rfl⟩)

theorem withMarkers_cons (first body segment : Str)
    (marked : List (Str × Str)) :
    withMarkers first ((body, segment) :: marked) = first ++
      (markerOpening ++ (body ++ (markerClosing ++ withMarkers segment marked))) := by
  simp [withMarkers]

theorem segments_cons (first body segment : Str) (marked : List (Str × Str)) :
    segments first ((body, segment) :: marked) =
      first ++ segments segment marked := by
  simp [segments]

theorem markerOpening_borderless : Borderless markerOpening := by
  unfold Borderless
  decide

/-- No marker begins in a segment. -/
theorem readMarker_segment {first s t : Str}
    (hclean : ¬markerOpening <:+: first) (hs : s <:+ first) (hne : s ≠ []) :
    readMarker (s ++ (markerOpening ++ t)) = none := by
  apply if_neg
  intro hhere
  have hfits := markerOpening_borderless.prefix_of_append hne hhere
  exact hclean (hfits.isInfix.trans hs.isInfix)

theorem readMarker_marker {body t : Str} (hbody : Closes body) :
    readMarker (markerOpening ++ (body ++ (markerClosing ++ t))) =
      some (t, body) := by
  have hbreak : breakAt markerClosing (body ++ (markerClosing ++ t)) =
      some (body, t) :=
    breakAt_double hbody.1 hbody.2
  rw [readMarker, if_pos (List.prefix_append _ _), List.drop_left, hbreak]
  rfl

theorem not_infix_of_segments {first u v : Str}
    (h : ¬markerOpening <:+: u ++ (first ++ v)) : ¬markerOpening <:+: first :=
  fun hhere => h (hhere.trans ⟨u, v, by rw [List.append_assoc]⟩)

/-- The markers are found one after the other, each with its own body. -/
theorem scan_withMarkers (first : Str) (marked : List (Str × Str))
    (hclean : ¬markerOpening <:+: segments first marked)
    (hbodies : ∀ m ∈ marked, Closes m.1) :
    scan readMarker (withMarkers first marked) = first.map .inl ++
      marked.flatMap fun m => .inr m.1 :: m.2.map .inl := by
  have hconsumes : Consumes readMarker :=
    fun _ _ _ hread => readMarker_length hread
  induction marked generalizing first with
  | nil =>
      have hfirst : ¬markerOpening <:+: first := by
        simpa [segments] using hclean
      have hwhole : withMarkers first [] = first ++ [] := rfl
      rw [hwhole, scan_append hconsumes, scan_nil hconsumes, List.flatMap_nil]
      intro s hs _
      rw [List.append_nil]
      exact if_neg fun hhere => hfirst (hhere.isInfix.trans hs.isInfix)
  | cons m marked ih =>
      obtain ⟨body, segment⟩ := m
      rw [segments_cons] at hclean
      have hfirst : ¬markerOpening <:+: first :=
        not_infix_of_segments (u := []) hclean
      have hrest : ¬markerOpening <:+: segments segment marked := fun hhere =>
        hclean (hhere.trans (List.suffix_append _ _).isInfix)
      have hbody := hbodies (body, segment) List.mem_cons_self
      have hlater := ih segment hrest fun m hm =>
        hbodies m (List.mem_cons_of_mem _ hm)
      rw [withMarkers_cons, scan_append hconsumes,
        scan_some hconsumes (readMarker_marker hbody), hlater]
      · rfl
      · exact fun s hs hne => readMarker_segment hfirst hs hne

theorem markerBodies_withMarkers {first : Str} {marked : List (Str × Str)}
    (hclean : ¬markerOpening <:+: segments first marked)
    (hbodies : ∀ m ∈ marked, Closes m.1) :
    markerBodies (withMarkers first marked) = marked.map Prod.fst := by
  have hkept : ∀ u : Str, (u.map (Sum.inl (β := Str))).filterMap Sum.getRight? = [] :=
    fun u => by simp
  rw [markerBodies, readings, scan_withMarkers first marked hclean hbodies,
    List.filterMap_append, hkept, List.nil_append, List.filterMap_flatMap,
    List.map_eq_flatMap]
  refine List.flatMap_congr fun m _ => ?_
  rw [List.filterMap_cons, hkept]
  rfl

theorem subConst_withMarkers {first : Str} {marked : List (Str × Str)}
    (hclean : ¬markerOpening <:+: segments first marked)
    (hbodies : ∀ m ∈ marked, Closes m.1) :
    followupMarker.subConst [] (withMarkers first marked) =
      segments first marked := by
  have hsub : followupMarker.subConst [] (withMarkers first marked) =
      rewriteBy (mapReader strip readMarker) (fun _ => [])
        (withMarkers first marked) := by
    refine reads_followupMarker.sub ?_ _
    exact fun _ => rfl
  have hkept : ∀ u : Str, (u.map (Sum.inl (β := Str))).flatMap
      (Sum.elim (fun ch => [ch]) fun _ => []) = u := by
    intro u
    simp [List.flatMap_map]
  rw [hsub, rewriteBy_mapReader, rewriteBy,
    scan_withMarkers first marked hclean hbodies, List.flatMap_append]
  exact congrArg₂ _ (hkept first) (by
    rw [List.flatMap_assoc]
    refine List.flatMap_congr fun m _ => ?_
    exact hkept m.2)

/-- A text without an opening has no fragment of a marker. -/
theorem subConst_fragment {t : Str} (hclean : ¬markerOpening <:+: t) :
    followupMarkerFragment.subConst [] t = t := by
  have hconsumes := reads_followupMarkerFragment.consumes
  have hsub : followupMarkerFragment.subConst [] t =
      rewriteBy readFragment (fun _ => []) t := by
    refine reads_followupMarkerFragment.sub ?_ t
    exact fun _ => rfl
  have hscan : scan readFragment t = t.map .inl := by
    have happend := scan_append (t := []) hconsumes (u := t) fun s hs _ => by
      rw [List.append_nil]
      exact if_neg fun hhere => hclean (hhere.isInfix.trans hs.isInfix)
    rwa [scan_nil hconsumes, List.append_nil, List.append_nil] at happend
  rw [hsub, rewriteBy, hscan, List.flatMap_map]
  simp

/-- What is put together with markers is taken apart again. -/
theorem extractFollowupRequest_withMarkers (first : Str)
    (marked : List (Str × Str))
    (hclean : ¬markerOpening <:+: segments first marked)
    (hbodies : ∀ m ∈ marked, Closes m.1) :
    extractFollowupRequest (withMarkers first marked) =
      (rstripBy isSpace (segments first marked),
        (marked.reverse.map fun m =>
          stripBy (oneOf " -") (collapseSpaces m.1)).find? (· ≠ [])) := by
  have hrequest : ∀ body, stripBy (oneOf " -") (collapseSpaces body) =
      requestOf body :=
    fun body => (stripBy_collapseSpaces_strip (by decide) body).symm
  have hasks : (fun request => decide (request ≠ [])) ∘ (fun m : Str × Str =>
      requestOf m.1) = asksSomething ∘ Prod.fst := by
    funext m
    rw [Function.comp_apply, Bool.eq_iff_iff, decide_eq_true_iff]
    exact requestOf_ne_nil m.1
  apply Prod.ext
  · rw [extractFollowupRequest]
    simp only [subConst_withMarkers hclean hbodies, subConst_fragment hclean]
  · rw [extractFollowupRequest_request, lastBody,
      markerBodies_withMarkers hclean hbodies, ← List.map_reverse,
      List.find?_map, Option.map_map]
    simp only [hrequest]
    rw [List.find?_map, hasks]
    rfl

/-- The last marker asks nothing, so the request is that of the one before. -/
theorem extractFollowupRequest_two_markers :
    extractFollowupRequest (withMarkers "Москва.".toList
      [(" рассказать  о метро ".toList, " Париж.".toList), (" - ".toList, " ".toList)]) =
      ("Москва. Париж.".toList, some "рассказать о метро".toList) :=
  (extractFollowupRequest_withMarkers "Москва.".toList
    [(" рассказать  о метро ".toList, " Париж.".toList), (" - ".toList, " ".toList)]
    (by decide) (by decide)).trans (by decide +kernel)

end AliceSkill
