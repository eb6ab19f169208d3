/-
Which comparisons are marked as partial.

Three bodies are read up to the cap before the comparison: the request that is mirrored
and the two responses.  The flags of the two responses reach the comparison.  That of the
request does not leave `handle_shadow`, so a request that was cut is marked only where a
response happens to be cut as well.
-/
import Thttpd.Proofs.Capped
import Thttpd.Proofs.Mirror

namespace Thttpd.Migrate

open Text

/-- A divergence between two values is not marked. -/
theorem unmarked_of_mem {p : Prop} [Decidable p] {field : Field} {expected actual : Str}
    {ctx : RequestContext} {d : Divergence}
    (h : d ∈ if p then [Divergence.new field expected actual ctx] else []) : d.truncated = false := by
  by_cases hp : p
  · rw [if_pos hp, List.mem_singleton] at h
    rw [h]
    rfl
  · simp [hp] at h

/-- A comparison marks itself as partial exactly when one side was cut. -/
theorem marked_iff {k : Crates} {primary shadow : Captured} {ctx : RequestContext} :
    (∃ d ∈ diffResponses k primary shadow ctx, d.truncated = true) ↔
      (primary.truncated || shadow.truncated) = true := by
  constructor
  · rintro ⟨d, hmem, hcut⟩
    by_contra hno
    have hfalse : (primary.truncated || shadow.truncated) = false := by simpa using hno
    have hunmarked : ∀ d ∈ diffResponses k primary shadow ctx, d.truncated = false := by
      intro d hd
      simp only [diffResponses, diffTruncation, hfalse, List.mem_append] at hd
      rcases hd with ((hd | hd) | hd) | hd
      · exact unmarked_of_mem hd
      · simp at hd
      · exact unmarked_of_mem hd
      · exact unmarked_of_mem hd
    rw [hunmarked d hmem] at hcut
    cases hcut
  · intro hcut
    refine ⟨{ Divergence.new .body "full body".toList "truncated at cap".toList ctx with
      truncated := true }, ?_, rfl⟩
    simp [diffResponses, diffTruncation, hcut]

/-- The bodies of the two responses are compared, and one of them was cut. -/
def ComparedCut (cap : Nat) (primary shadow : Response) : Prop :=
  ¬ FailsWithin cap shadow.body ∧ (Exceeds cap primary.body ∨ Exceeds cap shadow.body)

section Pipeline

variable {k : Crates} {job : Job} {d : RoutingDecision} {shadow : Str} {primary resp : Response}
  {divergences : List Divergence}

/-- The mirror knows whether the primary response was cut. -/
theorem mirrorOf_truncated {m : Mirror} (h : mirrorOf k job d shadow primary = some m) :
    m.primary.truncated = true ↔ Exceeds job.maxBodyBytes primary.body := by
  unfold mirrorOf at h
  split at h
  · unfold readResponseStep at h
    rcases hread : readCapped job.maxBodyBytes primary.body with ⟨_ | c, rest⟩
    · simp [hread] at h
    · simp only [hread, Option.some.injEq] at h
      rw [← truncated_iff_exceeds hread, ← h]
      rfl
  · cases h

/-- The recorded divergences are marked exactly when a compared response was cut. -/
theorem recorded_marked_iff
    (h : shadowPipeline k job d shadow primary resp = some divergences) :
    (∃ v ∈ divergences, v.truncated = true) ↔ ComparedCut job.maxBodyBytes primary resp := by
  obtain ⟨m, hm, hdiv⟩ := Option.bind_eq_some_iff.mp h
  unfold divergencesOf mirrorReadStep at hdiv
  rcases hread : readCapped job.maxBodyBytes resp.body with ⟨e | c, rest⟩
  · -- The shadow's body could not be read: nothing was compared.
    simp only [hread, Option.some.injEq] at hdiv
    have hfails := failsWithin_of_error hread
    simp [← hdiv, lifecycle, Divergence.new, ComparedCut, hfails]
  · simp only [hread, Option.some.injEq] at hdiv
    rw [← hdiv, compareShadow, marked_iff, Bool.or_eq_true, mirrorOf_truncated hm,
      truncated_iff_exceeds hread]
    simp [ComparedCut, not_failsWithin_of_ok hread]

end Pipeline

/--
**A partial comparison is marked exactly when a cut request comes with a cut
response.**  That something cut leaves a mark holds of a request and a pair of
responses if and only if the request does not go past the cap, or the shadow's body
can be read and one of the two response bodies goes past the cap.

The mark is set when one of the two captured responses was cut.  Whether the mirrored
request was cut is known when it is sent, and is not noted with the divergences.
-/
theorem partial_comparison_marked_iff (k : Crates) (job : Job) (d : RoutingDecision) (shadow : Str)
    (primary resp : Response) {divergences : List Divergence}
    (h : shadowPipeline k job d shadow primary resp = some divergences) :
    (Exceeds job.maxBodyBytes job.req.body ∨ ComparedCut job.maxBodyBytes primary resp →
      ∃ v ∈ divergences, v.truncated = true) ↔
    (Exceeds job.maxBodyBytes job.req.body → ComparedCut job.maxBodyBytes primary resp) := by
  rw [recorded_marked_iff h]
  constructor
  · intro hmarked hreq
    exact hmarked (.inl hreq)
  · rintro himp (hreq | hcut)
    · exact himp hreq
    · exact hcut

/-- An upload of four bytes where three are mirrored. -/
def uploadJob : Job :=
  ⟨⟨"PUT".toList, ⟨['/'], some ['/']⟩, [], [.data [97, 98, 99, 100]]⟩, "id".toList,
    ⟨.shadow, some "c".toList, some "rust".toList, []⟩, 3⟩

theorem partial_comparison_marked_upload :
    ∃ divergences, shadowPipeline .sample uploadJob rootDecision "rust".toList
        ⟨200, [], [.data [97, 98, 99, 100]]⟩ ⟨200, [], [.data [97, 98, 99]]⟩ = some divergences ∧
      ∃ v ∈ divergences, v.truncated = true := by
  have hprimary : Exceeds uploadJob.maxBodyBytes [.data [97, 98, 99, 100]] :=
    ⟨[.data [97, 98, 99, 100]], [], rfl, by simp [Complete], by decide⟩
  have hshadow : ¬ FailsWithin uploadJob.maxBodyBytes [.data [97, 98, 99]] := by
    rintro ⟨before, e, after, heq, -⟩
    have hmem : Frame.error e ∈ [Frame.data [97, 98, 99]] := by
      rw [heq]
      simp
    simp at hmem
  refine ⟨_, rfl, ?_⟩
  exact (partial_comparison_marked_iff .sample uploadJob rootDecision "rust".toList
    ⟨200, [], [.data [97, 98, 99, 100]]⟩ ⟨200, [], [.data [97, 98, 99]]⟩ rfl).mpr
    (fun _ => ⟨hshadow, .inl hprimary⟩) (.inl hprimary)

/--
**A shortened request is reported as an ordinary divergence.**  Three of four bytes
are mirrored, the shadow refuses them, and the status is all that is recorded.
-/
theorem cut_request_unmarked :
    Exceeds uploadJob.maxBodyBytes uploadJob.req.body ∧
    shadowPipeline .sample uploadJob rootDecision "rust".toList ⟨200, [], []⟩ ⟨400, [], []⟩ =
      some [⟨.status, "200".toList, "400".toList, ['/'], "PUT".toList, false⟩] :=
  ⟨⟨[.data [97, 98, 99, 100]], [], rfl, by simp [Complete], by decide⟩, by decide +kernel⟩

end Thttpd.Migrate
