/-
Request detection does not depend on how the bytes arrive, and is the legacy one.

`got_request` is called each time bytes have come, with the index and the state it
left before.  It can be broken off anywhere: a call that finds no request has either
looked at every byte or sits in a final state, and one that finds something has
looked at no byte after it.

The machine of the C server has the same transitions.  It differs in what it leaves
behind at the end, which is where the two indices come apart by one.
-/
import Thttpd.Lib.Scan
import Thttpd.Http.Parse
import Thttpd.Legacy.Libhttpd

namespace Thttpd

open Text

/-- A call that found nothing is repeated when there is more. -/
def GotRequest.asksForMore : GotRequest → Bool
  | .noRequest => true
  | _ => false

theorem GotRequest.asksForMore_iff {v : GotRequest} : v.asksForMore = true ↔ v = .noRequest := by
  cases v <;> simp [asksForMore]

/-! ### Breaking off a call -/

/-- A byte stops the machine without a verdict only in a final state, and stays unread. -/
theorem parseByte_stop_noRequest {state state' : ParseState} {c : UInt8} {consumed : Bool}
    (h : parseByte state c = .stop .noRequest consumed state') :
    consumed = false ∧ state' = state ∧ ∀ b, parseByte state b = .stop .noRequest false state := by
  cases state with
  | gotRequest =>
      simp only [parseByte, ParseStep.stop.injEq] at h
      exact ⟨h.2.1.symm, h.2.2.symm, fun _ => rfl⟩
  | bogus =>
      simp only [parseByte, ParseStep.stop.injEq] at h
      exact ⟨h.2.1.symm, h.2.2.symm, fun _ => rfl⟩
  | _ =>
      simp only [parseByte, ParseStep.bad, ParseStep.done] at h
      repeat' split at h
      all_goals simp at h

/-- The machine never goes back. -/
theorem gotRequestFrom_idx : ∀ (bs : Bytes) (idx : Nat) (state : ParseState),
    idx ≤ (gotRequestFrom bs idx state).2.1 ∧
      (gotRequestFrom bs idx state).2.1 ≤ idx + bs.length := by
  intro bs
  induction bs with
  | nil => intro idx state; exact ⟨Nat.le_refl _, Nat.le_refl _⟩
  | cons c bs ih =>
      intro idx state
      unfold gotRequestFrom
      split
      · rename_i state' _
        have := ih (idx + 1) state'
        rw [List.length_cons]
        omega
      · rw [List.length_cons]
        simp only
        split <;> omega

/-- A call that found nothing can be taken up where it stopped. -/
theorem gotRequestFrom_goesOn (rest : Bytes) : ∀ (bs : Bytes) (idx : Nat) (state : ParseState),
    (gotRequestFrom bs idx state).1 = .noRequest →
      gotRequestFrom ((bs ++ rest).drop ((gotRequestFrom bs idx state).2.1 - idx))
          (gotRequestFrom bs idx state).2.1 (gotRequestFrom bs idx state).2.2
        = gotRequestFrom (bs ++ rest) idx state := by
  intro bs
  induction bs with
  | nil =>
      intro idx state _
      show gotRequestFrom (rest.drop (idx - idx)) idx state = gotRequestFrom rest idx state
      rw [Nat.sub_self, List.drop_zero]
  | cons c bs ih =>
      intro idx state h
      cases hp : parseByte state c with
      | next state' =>
          simp only [gotRequestFrom, hp] at h
          have hih := ih (idx + 1) state' h
          have hidx := (gotRequestFrom_idx bs (idx + 1) state').1
          obtain ⟨k, hk⟩ : ∃ k, (gotRequestFrom bs (idx + 1) state').2.1 = idx + 1 + k :=
            ⟨_, (Nat.add_sub_cancel' hidx).symm⟩
          simp only [gotRequestFrom, hp, List.cons_append, hk] at hih ⊢
          rw [show idx + 1 + k - idx = (idx + 1 + k - (idx + 1)) + 1 by omega,
            List.drop_succ_cons]
          exact hih
      | stop verdict consumed state' =>
          simp only [gotRequestFrom, hp] at h
          subst h
          obtain ⟨rfl, rfl, -⟩ := parseByte_stop_noRequest hp
          simp [gotRequestFrom, hp]

/-- A call that found something does not look further. -/
theorem gotRequestFrom_stops (rest : Bytes) : ∀ (bs : Bytes) (idx : Nat) (state : ParseState),
    (gotRequestFrom bs idx state).1 ≠ .noRequest →
      gotRequestFrom (bs ++ rest) idx state = gotRequestFrom bs idx state := by
  intro bs
  induction bs with
  | nil => intro idx state h; exact absurd rfl h
  | cons c bs ih =>
      intro idx state h
      cases hp : parseByte state c with
      | next state' =>
          simp only [gotRequestFrom, hp, List.cons_append] at h ⊢
          exact ih (idx + 1) state' h
      | stop verdict consumed state' => simp [gotRequestFrom, hp]

theorem gotRequest_resumes : Scan.Resumes gotRequest GotRequest.asksForMore where
  goesOn := by
    intro buf idx state hidx hmore rest
    have h := gotRequestFrom_goesOn rest (buf.drop idx) idx state
      (GotRequest.asksForMore_iff.mp hmore)
    have hge := (gotRequestFrom_idx (buf.drop idx) idx state).1
    rw [← List.drop_append_of_le_length hidx, List.drop_drop,
      Nat.add_sub_cancel' hge] at h
    exact h
  stops := by
    intro buf idx state hidx hmore rest
    unfold gotRequest
    rw [List.drop_append_of_le_length hidx]
    refine gotRequestFrom_stops rest _ _ _ ?_
    intro hno
    exact absurd (GotRequest.asksForMore_iff.mpr hno) (Bool.eq_false_iff.mp hmore)

/-- The calls of `got_request` on a connection whose bytes arrive in these chunks. -/
def gotRequestCalls (chunks : List Bytes) : List (GotRequest × Nat × ParseState) :=
  Scan.feed gotRequest GotRequest.asksForMore [] 0 .firstWord chunks

/--
**Detection does not depend on how the bytes are cut**: the last call leaves what
one call on all of them leaves, and when that one finds nothing, no call finds
anything.

The detection machine keeps its state and its place between the calls, so reading on
is reading from there.
-/
theorem got_request_chunks (chunks : List Bytes) :
    (gotRequestCalls chunks).getLastD (.noRequest, 0, .firstWord)
        = gotRequest chunks.flatten 0 .firstWord ∧
      ((gotRequest chunks.flatten 0 .firstWord).1 = .noRequest →
        (gotRequestCalls chunks).length = chunks.length ∧
          ∀ r ∈ gotRequestCalls chunks, r.1 = .noRequest) := by
  have hlast := gotRequest_resumes.feed_last (s := .firstWord) chunks []
    (Nat.le_refl 0) rfl
  refine ⟨hlast, ?_⟩
  intro hno
  obtain ⟨hcount, hall⟩ := gotRequest_resumes.feed_more (s := .firstWord) chunks []
    (Nat.le_refl 0) rfl (GotRequest.asksForMore_iff.mpr hno)
  exact ⟨hcount, fun r hr => GotRequest.asksForMore_iff.mp (hall r hr)⟩

/-! ### The legacy machine -/

namespace Legacy

/-- The state of the port for a state of the C machine. -/
def CheckedState.ported : CheckedState → ParseState
  | .firstWord => .firstWord
  | .firstWs => .firstWs
  | .secondWord => .secondWord
  | .secondWs => .secondWs
  | .thirdWord => .thirdWord
  | .thirdWs => .thirdWs
  | .line => .line
  | .lf => .lf
  | .cr => .cr
  | .crlf => .crlf
  | .crlfcr => .crlfcr
  | .bogus => .bogus

/-- The port's index for the index the C machine stopped at. -/
def portedIdx (verdict : GotRequest) (idx : Nat) : Nat :=
  match verdict with
  | .gotRequest => idx + 1
  | _ => idx

/-- What the port leaves after a call, against what the C server leaves. -/
structure Agree (r : GotRequest × Nat × ParseState) (l : GotRequest × Nat × CheckedState) :
    Prop where
  verdict : r.1 = l.1
  idx : r.2.1 = portedIdx l.1 l.2.1
  state : l.1 = .noRequest → r.2.2 = l.2.2.ported ∧ l.2.2 ≠ .bogus

/--
**One byte takes both machines the same way.**

The two machines are compared state by state here and nowhere else.
-/
theorem parseByte_ported {state : CheckedState} (hlive : state ≠ .bogus) (c : UInt8) :
    match checkByte state c with
    | (state', none) => parseByte state.ported c = .next state'.ported ∧ state' ≠ .bogus
    | (_, some .gotRequest) => parseByte state.ported c = .done
    | (_, some .badRequest) => parseByte state.ported c = .bad
    | (_, some .noRequest) => False := by
  cases state with
  | bogus => exact absurd rfl hlive
  | _ =>
      simp only [checkByte, CheckedState.ported, parseByte, isBlank_iff, isCr_iff, isLf_iff,
        Bool.or_eq_true]
      by_cases hblank : c = 32 ∨ c = 9
      · rcases hblank with rfl | rfl <;> simp
      · by_cases hlf : c = 10
        · subst hlf
          simp
        · by_cases hcr : c = 13
          · subst hcr
            simp
          · simp [hblank, hlf, hcr]

theorem gotRequestFrom_agree : ∀ (bs : Bytes) (idx : Nat) {state : CheckedState},
    state ≠ .bogus →
      Agree (gotRequestFrom bs idx state.ported) (httpdGotRequestFrom bs idx state) := by
  intro bs
  induction bs with
  | nil => intro idx state hlive; exact ⟨rfl, rfl, fun _ => ⟨rfl, hlive⟩⟩
  | cons c bs ih =>
      intro idx state hlive
      have hstep := parseByte_ported hlive c
      cases hl : checkByte state c with
      | mk state' verdict =>
          rw [hl] at hstep
          cases verdict with
          | none =>
              simp only at hstep
              simp only [gotRequestFrom, httpdGotRequestFrom, hl, hstep.1]
              exact ih (idx + 1) hstep.2
          | some verdict =>
              cases verdict with
              | noRequest => exact hstep.elim
              | gotRequest =>
                  simp only at hstep
                  simp only [gotRequestFrom, httpdGotRequestFrom, hl, hstep, ParseStep.done]
                  exact ⟨rfl, rfl, fun h => by cases h⟩
              | badRequest =>
                  simp only at hstep
                  simp only [gotRequestFrom, httpdGotRequestFrom, hl, hstep, ParseStep.bad]
                  exact ⟨rfl, rfl, fun h => by cases h⟩

/-- The calls of `httpd_got_request` on a connection whose bytes arrive in these chunks. -/
def httpdGotRequestCalls (chunks : List Bytes) : List (GotRequest × Nat × CheckedState) :=
  Scan.feed httpdGotRequest GotRequest.asksForMore [] 0 .firstWord chunks

/--
**The port agrees with the C server call by call**, however the bytes arrive: in the
verdict, in the place, and in the state after each call that finds nothing.

A simulation: the states stay in correspondence from one call to the next, and a
call that ends the request ends it in both.
-/
theorem got_request_refines_legacy (chunks : List Bytes) :
    List.Forall₂ Agree (gotRequestCalls chunks) (httpdGotRequestCalls chunks) := by
  refine Scan.feed_forall₂ (fun p q => p.1 = q.1 ∧ p.2 = q.2.ported ∧ q.2 ≠ .bogus)
    ?_ Agree.verdict ?_ chunks [] 0 .firstWord 0 .firstWord ⟨rfl, rfl, by simp⟩
  · rintro buf i s j t ⟨hi, hs, hlive⟩
    simp only at hi hs hlive
    subst hi hs
    exact gotRequestFrom_agree (buf.drop i) i hlive
  · intro r l hagree hmore
    have hno : l.1 = .noRequest := hagree.verdict ▸ GotRequest.asksForMore_iff.mp hmore
    obtain ⟨hstate, hlive⟩ := hagree.state hno
    refine ⟨?_, hstate, hlive⟩
    rw [hagree.idx, hno]
    rfl

end Legacy

end Thttpd
