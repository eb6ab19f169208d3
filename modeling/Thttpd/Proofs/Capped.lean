/-
Reading a body up to a cap.

A stream is read frame by frame until it ends, fails, or the next frame would cross the
cap.  These are the only ways, and which one it is can be said of the stream alone.  In
none of them is a byte lost: what was buffered, the rest of the frame that was split and
what is left of the stream make up the whole again, and a failure is met either by the
reader or by whoever reads the rest.

A stream is a list of frames and perhaps an error at its end, and reading it is an
induction over the frames.  The cap is crossed by a single frame, so a stream that
goes past it is a part that fits, that frame, and the rest (`exists_crossing`), and
what the reader does with each of the three is said once.
-/
import Thttpd.Migrate.Shadow

namespace Thttpd.Migrate

open Text

/-! ### Streams

What a stream holds is what there is to be had by reading it all.  A chained body is
polled frame by frame, first the chunks in memory and then the stream, and what
comes of it is the same.
-/

/-- All the data of a stream, or the error that ends it. -/
def collect : Body → Except Str Bytes
  | [] => .ok []
  | .error e :: _ => .error e
  | .trailers :: rest => collect rest
  | .data d :: rest => (collect rest).map (d ++ ·)

/-- What is collected by polling a chained body to its end. -/
inductive ChainedBody.Drains : ChainedBody → Except Str Bytes → Prop
  | done {b b' : ChainedBody} : b.pollFrame = (none, b') → Drains b (.ok [])
  | data {b b' : ChainedBody} {d : Bytes} {r : Except Str Bytes} :
      b.pollFrame = (some (.data d), b') → Drains b' r → Drains b (r.map (d ++ ·))
  | trailers {b b' : ChainedBody} {r : Except Str Bytes} :
      b.pollFrame = (some .trailers, b') → Drains b' r → Drains b r
  | error {b b' : ChainedBody} {e : Str} :
      b.pollFrame = (some (.error e), b') → Drains b (.error e)

/-- The data of two streams, one after the other. -/
theorem dataOf_append (a b : Body) : dataOf (a ++ b) = dataOf a ++ dataOf b := by
  induction a with
  | nil => rfl
  | cons f a ih =>
      cases f with
      | data d => rw [List.cons_append, dataOf, dataOf, ih, List.append_assoc]
      | trailers => exact ih
      | error e => exact ih

theorem Complete.of_append_left {a b : Body} (h : Complete (a ++ b)) : Complete a :=
  fun e he => h e (List.mem_append_left b he)

theorem Complete.of_append_right {a b : Body} (h : Complete (a ++ b)) : Complete b :=
  fun e he => h e (List.mem_append_right a he)

/-- Two complete streams, one after the other, are one. -/
theorem Complete.append {a b : Body} (ha : Complete a) (hb : Complete b) : Complete (a ++ b) := by
  intro e he
  rcases List.mem_append.mp he with he | he
  · exact ha e he
  · exact hb e he

theorem collect_append {a : Body} (ha : Complete a) (b : Body) :
    collect (a ++ b) = (collect b).map (dataOf a ++ ·) := by
  induction a with
  | nil =>
      show collect b = (collect b).map id
      cases collect b with
      | error e => rfl
      | ok bytes => rfl
  | cons f a ih =>
      have hrest : Complete a := ha.of_append_right (a := [f])
      cases f with
      | data d =>
          rw [List.cons_append, collect, ih hrest, dataOf]
          cases collect b with
          | error e => rfl
          | ok bytes => simp [Except.map]
      | trailers => exact ih hrest
      | error e => exact absurd List.mem_cons_self (ha e)

/-- A complete stream has its data. -/
theorem collect_of_complete {body : Body} (h : Complete body) : collect body = .ok (dataOf body) := by
  have hall := collect_append h []
  rw [List.append_nil] at hall
  rw [hall]
  simp [collect, Except.map]

/-- Polling to the end collects the chunks and the stream. -/
theorem drains_chunks (chunks : List Bytes) (rest : Body) :
    ChainedBody.Drains ⟨chunks, some rest⟩ (collect (chunks.map Frame.data ++ rest)) := by
  induction chunks with
  | nil =>
      induction rest with
      | nil => exact .done rfl
      | cons f rest ih =>
          cases f with
          | data d => exact .data rfl ih
          | trailers => exact .trailers rfl ih
          | error e => exact .error rfl
  | cons chunk chunks ih => exact .data rfl ih

/-- Empty chunks carry no data. -/
theorem collect_filter (chunks : List Bytes) (rest : Body) :
    collect ((chunks.filter (· ≠ [])).map Frame.data ++ rest)
      = (collect rest).map (chunks.flatten ++ ·) := by
  induction chunks with
  | nil =>
      show collect rest = (collect rest).map id
      cases collect rest with
      | error e => rfl
      | ok bytes => rfl
  | cons chunk chunks ih =>
      by_cases hc : chunk = []
      · rw [hc, List.filter_cons_of_neg (by simp), ih]
        rfl
      · rw [List.filter_cons_of_pos (by simpa using hc), List.map_cons, List.cons_append, collect, ih]
        cases collect rest with
        | error e => rfl
        | ok bytes => simp [Except.map]

theorem drains_new (chunks : List Bytes) (rest : Body) :
    (ChainedBody.new chunks (some rest)).Drains ((collect rest).map (chunks.flatten ++ ·)) := by
  rw [← collect_filter]
  exact drains_chunks _ rest

/-- A body is polled in one way only. -/
theorem ChainedBody.Drains.unique {b : ChainedBody} {r r' : Except Str Bytes} (h : b.Drains r) :
    b.Drains r' → r = r' := by
  induction h generalizing r' with
  | done hpoll =>
      intro h'
      cases h' with
      | done _ => rfl
      | data hpoll' _ => simp [hpoll] at hpoll'
      | trailers hpoll' _ => simp [hpoll] at hpoll'
      | error hpoll' => simp [hpoll] at hpoll'
  | data hpoll _ ih =>
      intro h'
      cases h' with
      | done hpoll' => simp [hpoll] at hpoll'
      | data hpoll' hrest =>
          obtain ⟨rfl, rfl⟩ : _ = _ ∧ _ = _ := by simpa [hpoll] using hpoll'
          rw [ih hrest]
      | trailers hpoll' _ => simp [hpoll] at hpoll'
      | error hpoll' => simp [hpoll] at hpoll'
  | trailers hpoll _ ih =>
      intro h'
      cases h' with
      | done hpoll' => simp [hpoll] at hpoll'
      | data hpoll' _ => simp [hpoll] at hpoll'
      | trailers hpoll' hrest =>
          obtain rfl : _ = _ := by simpa [hpoll] using hpoll'
          exact ih hrest
      | error hpoll' => simp [hpoll] at hpoll'
  | error hpoll =>
      intro h'
      cases h' with
      | done hpoll' => simp [hpoll] at hpoll'
      | data hpoll' _ => simp [hpoll] at hpoll'
      | trailers hpoll' _ => simp [hpoll] at hpoll'
      | error hpoll' =>
          obtain ⟨rfl, -⟩ : _ = _ ∧ _ = _ := by simpa [hpoll] using hpoll'
          rfl

/-- What is drained are the chunks and then the stream. -/
theorem drains_new_iff {chunks : List Bytes} {rest : Body} {r : Except Str Bytes} :
    (ChainedBody.new chunks (some rest)).Drains r ↔ r = (collect rest).map (chunks.flatten ++ ·) := by
  constructor
  · intro h
    exact h.unique (drains_new chunks rest)
  · rintro rfl
    exact drains_new chunks rest

/-! ### The three ways to end

They exclude each other, and each says by itself what the reader returns.
-/

/-- The stream ends, and its data are not more than the cap. -/
structure FitsCap (cap : Nat) (body : Body) : Prop where
  complete : Complete body
  length : (dataOf body).length ≤ cap

/-- The stream fails before more than the cap has come. -/
def FailsWithin (cap : Nat) (body : Body) : Prop :=
  ∃ before e after, body = before ++ .error e :: after ∧ Complete before ∧
    (dataOf before).length ≤ cap

/-- More than the cap comes, and the stream has not failed before. -/
def Exceeds (cap : Nat) (body : Body) : Prop :=
  ∃ before after, body = before ++ after ∧ Complete before ∧ cap < (dataOf before).length

/-- Frames that stay within the cap are buffered. -/
theorem readCappedFrom_append {cap : Nat} {before : Body} (hok : Complete before) (after : Body) :
    ∀ buf : Bytes, buf.length + (dataOf before).length ≤ cap →
      readCappedFrom cap buf (before ++ after) = readCappedFrom cap (buf ++ dataOf before) after := by
  induction before with
  | nil =>
      intro buf _
      rw [dataOf, List.append_nil, List.nil_append]
  | cons f before ih =>
      have hrest : Complete before := hok.of_append_right (a := [f])
      intro buf hlen
      cases f with
      | data d =>
          rw [dataOf, List.length_append] at hlen
          rw [List.cons_append, readCappedFrom, if_pos (by omega),
            ih hrest (buf ++ d) (by rw [List.length_append]; omega), dataOf, List.append_assoc]
      | trailers => exact ih hrest buf hlen
      | error e => exact absurd List.mem_cons_self (hok e)

/-- Frames within the cap are read first. -/
theorem readCapped_append {cap : Nat} {before : Body} (hok : Complete before)
    (hlen : (dataOf before).length ≤ cap) (after : Body) :
    readCapped cap (before ++ after) = readCappedFrom cap (dataOf before) after := by
  have h := readCappedFrom_append hok after [] (by simpa using hlen)
  rwa [List.nil_append] at h

/-- A failure within the cap is reported. -/
theorem readCapped_of_fails {cap : Nat} {before after : Body} {e : Str} (hok : Complete before)
    (hlen : (dataOf before).length ≤ cap) :
    readCapped cap (before ++ .error e :: after) = (.error e, after) := by
  rw [readCapped_append hok hlen, readCappedFrom]

/-- The frame that crosses the cap is split. -/
theorem readCapped_of_crosses {cap : Nat} {before after : Body} {d : Bytes} (hok : Complete before)
    (hlen : (dataOf before).length ≤ cap) (hcross : cap < (dataOf before).length + d.length) :
    readCapped cap (before ++ .data d :: after) =
      (.ok ⟨dataOf before ++ d.take (cap - (dataOf before).length),
        some (d.drop (cap - (dataOf before).length)), true⟩, after) := by
  rw [readCapped_append hok hlen, readCappedFrom, if_neg (by omega)]

/-- A stream that goes past the cap does so with one frame. -/
theorem exists_crossing {cap : Nat} {body : Body} (h : Exceeds cap body) :
    ∃ before d after, body = before ++ .data d :: after ∧ Complete before ∧
      (dataOf before).length ≤ cap ∧ cap < (dataOf before).length + d.length := by
  obtain ⟨long, after, rfl, hok, hlong⟩ := h
  induction long generalizing cap with
  | nil => exact absurd hlong (Nat.not_lt_zero cap)
  | cons f long ih =>
      have hrest : Complete long := hok.of_append_right (a := [f])
      have hf : Complete [f] := hok.of_append_left (b := long)
      cases f with
      | error e => exact absurd List.mem_cons_self (hok e)
      | trailers =>
          obtain ⟨before, d, after', heq, hb, hle, hlt⟩ := ih hrest hlong
          exact ⟨.trailers :: before, d, after', by rw [List.cons_append, heq]; rfl, hf.append hb, hle, hlt⟩
      | data d =>
          by_cases hd : cap < d.length
          · exact ⟨[], d, long ++ after, rfl, by simp [Complete], Nat.zero_le cap, by simpa [dataOf] using hd⟩
          · rw [dataOf, List.length_append] at hlong
            have hshort : cap - d.length < (dataOf long).length := by omega
            obtain ⟨before, d', after', heq, hb, hle, hlt⟩ := ih hrest hshort
            refine ⟨.data d :: before, d', after', by rw [List.cons_append, heq]; rfl, hf.append hb, ?_, ?_⟩
            · rw [dataOf, List.length_append]
              omega
            · rw [dataOf, List.length_append]
              omega

/-- There is no other way. -/
theorem body_cases (cap : Nat) (body : Body) :
    FitsCap cap body ∨ FailsWithin cap body ∨ Exceeds cap body := by
  induction body generalizing cap with
  | nil => exact .inl ⟨by simp [Complete], by simp [dataOf]⟩
  | cons f body ih =>
      cases f with
      | error e => exact .inr (.inl ⟨[], e, body, rfl, by simp [Complete], by simp [dataOf]⟩)
      | trailers =>
          have hf : Complete [Frame.trailers] := by simp [Complete]
          rcases ih cap with h | ⟨before, e, after, rfl, hok, hle⟩ | ⟨before, after, rfl, hok, hlt⟩
          · exact .inl ⟨hf.append h.complete, h.length⟩
          · exact .inr (.inl ⟨.trailers :: before, e, after, rfl, hf.append hok, hle⟩)
          · exact .inr (.inr ⟨.trailers :: before, after, rfl, hf.append hok, hlt⟩)
      | data d =>
          have hf : Complete [Frame.data d] := by simp [Complete]
          by_cases hd : cap < d.length
          · exact .inr (.inr ⟨[.data d], body, rfl, hf, by simpa [dataOf] using hd⟩)
          · rcases ih (cap - d.length) with h | ⟨before, e, after, rfl, hok, hle⟩ |
              ⟨before, after, rfl, hok, hlt⟩
            · refine .inl ⟨hf.append h.complete, ?_⟩
              have hle := h.length
              rw [dataOf, List.length_append]
              omega
            · refine .inr (.inl ⟨.data d :: before, e, after, rfl, hf.append hok, ?_⟩)
              rw [dataOf, List.length_append]
              omega
            · refine .inr (.inr ⟨.data d :: before, after, rfl, hf.append hok, ?_⟩)
              rw [dataOf, List.length_append]
              omega

/-- Reading says which of the three it was. -/
theorem readCapped_cases (cap : Nat) (body : Body) :
    (FitsCap cap body ∧ readCapped cap body = (.ok ⟨dataOf body, none, false⟩, [])) ∨
    (FailsWithin cap body ∧ ∃ e rest, readCapped cap body = (.error e, rest)) ∨
    (Exceeds cap body ∧ ∃ c rest, readCapped cap body = (.ok c, rest) ∧ c.truncated = true) := by
  rcases body_cases cap body with h | h | h
  · exact .inl ⟨h, readCapped_of_fits h.complete h.length⟩
  · refine .inr (.inl ⟨h, ?_⟩)
    obtain ⟨before, e, after, rfl, hok, hle⟩ := h
    exact ⟨e, after, readCapped_of_fails hok hle⟩
  · refine .inr (.inr ⟨h, ?_⟩)
    obtain ⟨before, d, after, rfl, hok, hle, hlt⟩ := exists_crossing h
    exact ⟨_, after, readCapped_of_crosses hok hle hlt, rfl⟩

theorem FitsCap.not_exceeds {cap : Nat} {body : Body} (h : FitsCap cap body) : ¬ Exceeds cap body := by
  rintro ⟨before, after, rfl, -, hlt⟩
  have hle := h.length
  rw [dataOf_append, List.length_append] at hle
  omega

/-- What was read is cut exactly when the stream goes past the cap. -/
theorem truncated_iff_exceeds {cap : Nat} {body rest : Body} {c : Capped}
    (h : readCapped cap body = (.ok c, rest)) : c.truncated = true ↔ Exceeds cap body := by
  rcases readCapped_cases cap body with ⟨hfit, heq⟩ | ⟨-, e, rest', heq⟩ | ⟨hexceeds, c', rest', heq, hcut⟩
  · rw [heq] at h
    cases h
    simpa using hfit.not_exceeds
  · rw [heq] at h
    cases h
  · rw [heq] at h
    cases h
    simpa [hcut] using hexceeds

theorem not_failsWithin_of_ok {cap : Nat} {body rest : Body} {c : Capped}
    (h : readCapped cap body = (.ok c, rest)) : ¬ FailsWithin cap body := by
  rintro ⟨before, e, after, rfl, hok, hle⟩
  rw [readCapped_of_fails hok hle] at h
  cases h

theorem failsWithin_of_error {cap : Nat} {body rest : Body} {e : Str}
    (h : readCapped cap body = (.error e, rest)) : FailsWithin cap body := by
  rcases readCapped_cases cap body with ⟨-, heq⟩ | ⟨hfails, -⟩ | ⟨-, c, rest', heq, -⟩
  · rw [heq] at h
    cases h
  · exact hfails
  · rw [heq] at h
    cases h

/-! ### Nothing is lost

What is left in hand is one stream again, and polling it gives back the data from
the beginning.
-/

/-- What the capped reading of a complete body leaves in hand. -/
structure Lossless (cap : Nat) (body : Body) (c : Capped) (rest : Body) : Prop where
  data : c.buffered ++ c.tail.getD [] ++ dataOf rest = dataOf body
  length : c.buffered.length = min cap (dataOf body).length
  truncated : c.truncated = true ↔ cap < (dataOf body).length
  drained : ∀ r, (ChainedBody.new [c.buffered, c.tail.getD []] (some rest)).Drains r ↔
    r = .ok (dataOf body)

theorem lossless_of_fits {cap : Nat} {body : Body} (h : FitsCap cap body) :
    Lossless cap body ⟨dataOf body, none, false⟩ [] where
  data := by simp [dataOf]
  length := by
    have hlen := h.length
    show (dataOf body).length = min cap (dataOf body).length
    omega
  truncated := by
    have hlen := h.length
    simpa using hlen
  drained := by
    intro r
    rw [drains_new_iff]
    simp [collect, Except.map]

/-- What was split off and what is left come after what was buffered. -/
theorem drains_crossed {cap : Nat} {before after : Body} {d : Bytes} (hok : Complete before)
    {r : Except Str Bytes} :
    (ChainedBody.new [dataOf before ++ d.take cap, d.drop cap] (some after)).Drains r ↔
      r = collect (before ++ .data d :: after) := by
  rw [drains_new_iff, collect_append hok, collect]
  cases collect after with
  | error e => rfl
  | ok bytes =>
      simp [Except.map]

theorem lossless_of_crosses {cap : Nat} {before after : Body} {d : Bytes}
    (hok : Complete (before ++ .data d :: after)) (hlen : (dataOf before).length ≤ cap)
    (hcross : cap < (dataOf before).length + d.length) :
    Lossless cap (before ++ .data d :: after)
      ⟨dataOf before ++ d.take (cap - (dataOf before).length),
        some (d.drop (cap - (dataOf before).length)), true⟩ after := by
  have htotal : dataOf (before ++ .data d :: after) = dataOf before ++ (d ++ dataOf after) := by
    rw [dataOf_append, dataOf]
  refine ⟨?_, ?_, ?_, ?_⟩
  · rw [htotal, Option.getD_some, List.append_assoc, List.append_assoc,
      ← List.append_assoc (d.take _), List.take_append_drop]
  · rw [htotal]
    simp only [List.length_append, List.length_take]
    omega
  · rw [htotal]
    simp only [List.length_append, true_iff]
    omega
  · intro r
    rw [Option.getD_some, drains_crossed hok.of_append_left, collect_of_complete hok]

/--
**Capped reading loses nothing.**  Of a stream that does not fail, what was buffered,
the rest of the split frame and what is left unread are the data, as much as the cap
allows is buffered, and the chained body drains to the data.  A failure is reported
by the reading or, when more than the cap comes before it, by the chained body.

Two places where a stream may be cut are told apart: between two frames, where the
tail is empty, and within one, whose rest must not be lost.  The chained body is the
buffered part, the tail and the unread stream, in that order.
-/
theorem read_capped_lossless (cap : Nat) (body : Body) :
    (Complete body → ∃ c rest, readCapped cap body = (.ok c, rest) ∧ Lossless cap body c rest) ∧
    ∀ before e after, body = before ++ .error e :: after → Complete before →
      ((dataOf before).length ≤ cap → (readCapped cap body).1 = .error e) ∧
      (cap < (dataOf before).length → ∃ c rest, readCapped cap body = (.ok c, rest) ∧
        ∀ r, (ChainedBody.new [c.buffered, c.tail.getD []] (some rest)).Drains r ↔ r = .error e) := by
  constructor
  · intro hok
    by_cases hfit : (dataOf body).length ≤ cap
    · exact ⟨_, _, readCapped_of_fits hok hfit, lossless_of_fits ⟨hok, hfit⟩⟩
    · have hexceeds : Exceeds cap body := ⟨body, [], by simp, hok, by omega⟩
      obtain ⟨before, d, after, rfl, hb, hle, hlt⟩ := exists_crossing hexceeds
      exact ⟨_, _, readCapped_of_crosses hb hle hlt, lossless_of_crosses hok hle hlt⟩
  · rintro before e after rfl hbefore
    refine ⟨?_, ?_⟩
    · intro hle
      rw [readCapped_of_fails hbefore hle]
    · intro hlong
      have hcollect : collect (before ++ .error e :: after) = .error e := by
        rw [collect_append hbefore, collect]
        rfl
      obtain ⟨b, d, rest, heq, hb, hle, hlt⟩ := exists_crossing ⟨before, _, rfl, hbefore, hlong⟩
      rw [heq] at hcollect ⊢
      refine ⟨_, _, readCapped_of_crosses hb hle hlt, ?_⟩
      intro r
      rw [Option.getD_some, drains_crossed hb, hcollect]

/-- Five bytes in two frames under a cap of three: the second frame is split. -/
theorem read_capped_lossless_split :
    (∃ c rest, readCapped 3 [.data [1, 2], .trailers, .data [3, 4, 5]] = (.ok c, rest) ∧
      Lossless 3 [.data [1, 2], .trailers, .data [3, 4, 5]] c rest) ∧
    (readCapped 3 [.data [1, 2], .error "reset".toList]).1 = .error "reset".toList :=
  ⟨(read_capped_lossless 3 _).1 (by simp [Complete]),
    ((read_capped_lossless 3 _).2 [.data [1, 2]] "reset".toList [] rfl (by simp [Complete])).1
      (by decide)⟩

end Thttpd.Migrate
