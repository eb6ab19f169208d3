/-
What the reader of control frames makes of what the writer wrote.

Frames are read back in order however the stream was cut, up to the first payload the
reader does not accept.  It tells that by the length in the frame, which the writer has cast
to 32 bits: a payload of four gigabytes passes for an empty one.

The reader is called until it fails, so what it returns is a list of payloads and an
error behind them.  The stream may break off anywhere, and the writer may have
written anything; the two are told apart by the first payload whose length does not
fit.
-/
import Thttpd.Migrate.Framing

namespace Thttpd.Migrate

open Text Chunks

/-! ### Lengths

Four bytes hold the length modulo 2³², and a length below that is read back.
-/

theorem fromBeBytes_toBeBytes {n : Nat} (h : n < 4294967296) : fromBeBytes (toBeBytes n) = n := by
  simp only [fromBeBytes, toBeBytes, List.foldl_cons, List.foldl_nil, UInt8.toNat_ofNat']
  omega

theorem asU32_lt (n : Nat) : asU32 n < 4294967296 := Nat.mod_lt n (by decide)

theorem asU32_of_le {n : Nat} (h : n ≤ maxFrame) : asU32 n = n := by
  have hmax : maxFrame = 16777216 := rfl
  exact Nat.mod_eq_of_lt (by omega)

/-! ### What was written

Frames are appended to what has been written, so the stream is a concatenation of
frames.
-/

def frame (p : Bytes) : Bytes := toBeBytes (asU32 p.length) ++ p

/-- The stream after the payloads have been written to it. -/
def written (ps : List Bytes) : Bytes := ps.foldl writeFrame []

theorem foldl_writeFrame (w : Bytes) (ps : List Bytes) : ps.foldl writeFrame w = w ++ ps.flatMap frame := by
  induction ps generalizing w with
  | nil => rw [List.foldl_nil, List.flatMap_nil, List.append_nil]
  | cons p ps ih =>
      rw [List.foldl_cons, ih, List.flatMap_cons, writeFrame, frame, List.append_assoc,
        List.append_assoc, List.append_assoc]

theorem written_cons (p : Bytes) (ps : List Bytes) : written (p :: ps) = frame p ++ written ps := by
  rw [written, written, foldl_writeFrame, foldl_writeFrame, List.nil_append, List.nil_append,
    List.flatMap_cons]

theorem written_append (ps qs : List Bytes) : written (ps ++ qs) = written ps ++ written qs := by
  rw [written, List.foldl_append, foldl_writeFrame (ps.foldl writeFrame []), written, written,
    foldl_writeFrame [] qs, List.nil_append]

/-- The reader accepts the payload. -/
def admissible (p : Bytes) : Bool := decide (p.length ≤ maxFrame)

/-! ### One call

A call takes a frame off the stream, refuses a length above its limit, or finds the
end.
-/

section

variable {chunks : List Bytes} {rest : Bytes}

theorem readFrame_ok {n : Nat} {body : Bytes} (hlen : body.length = n) (hn : n ≤ maxFrame)
    (h : Pieces chunks (toBeBytes n ++ body ++ rest)) :
    ∃ left, readFrame chunks = .ok (body, left) ∧ Pieces left rest := by
  subst hlen
  have hlt : body.length < 4294967296 := by
    rw [← asU32_of_le hn]
    exact asU32_lt _
  rw [List.append_assoc] at h
  obtain ⟨mid, hhead, hmid⟩ := readExact_append h
  obtain ⟨left, hbody, hleft⟩ := readExact_append hmid
  have h4 : readExact 4 chunks = some (toBeBytes body.length, mid) := hhead
  refine ⟨left, ?_, hleft⟩
  unfold readFrame
  simp only [h4, fromBeBytes_toBeBytes hlt, hn, if_true, hbody]

theorem readFrame_large {n : Nat} (hn : maxFrame < n) (hlt : n < 4294967296)
    (h : Pieces chunks (toBeBytes n ++ rest)) : ∃ e, readFrame chunks = .error e := by
  obtain ⟨mid, hhead, -⟩ := readExact_append h
  have h4 : readExact 4 chunks = some (toBeBytes n, mid) := hhead
  refine ⟨.other ("control frame too large: ".toList ++ natStr n), ?_⟩
  unfold readFrame
  simp only [h4, fromBeBytes_toBeBytes hlt, Nat.not_le_of_lt hn, if_false]

/-- A stream that ends within a frame. -/
theorem readFrame_cut {bs : Bytes} {p : Bytes} (hp : p.length ≤ maxFrame) (hbs : bs <+: frame p)
    (hne : bs.length < (frame p).length) (h : Pieces chunks bs) : readFrame chunks = .error .unexpectedEof := by
  rw [frame, asU32_of_le hp] at hbs hne
  have hlt : p.length < 4294967296 := by
    rw [← asU32_of_le hp]
    exact asU32_lt _
  have h4 : (toBeBytes p.length).length = 4 := rfl
  unfold readFrame
  rcases Nat.lt_or_ge bs.length 4 with hshort | hlong
  · simp only [readExact_short h hshort]
  · have hhead : toBeBytes p.length <+: bs :=
      List.prefix_of_prefix_length_le (List.prefix_append _ p) hbs (by omega)
    obtain ⟨body, rfl⟩ := hhead
    rw [List.length_append, List.length_append] at hne
    obtain ⟨mid, hhead, hmid⟩ := readExact_append h
    have hhead : readExact 4 chunks = some (toBeBytes p.length, mid) := hhead
    have hend : readExact p.length mid = none := readExact_short hmid (by omega)
    simp only [hhead, fromBeBytes_toBeBytes hlt, hp, if_true, hend]

theorem readFrame_eof (h : Pieces chunks []) : readFrame chunks = .error .unexpectedEof := by
  unfold readFrame
  simp only [readExact_short h (by decide : ([] : Bytes).length < 4)]

end

/-! ### Successive calls

The calls after an error are never made, so the answers end with it.
-/

theorem take_readFrames (n m : Nat) (chunks : List Bytes) :
    (readFrames (n + m) chunks).take n = readFrames n chunks := by
  induction n generalizing chunks with
  | zero => rw [List.take_zero, readFrames]
  | succ n ih =>
      rw [Nat.succ_add, readFrames, readFrames]
      cases readFrame chunks with
      | error e => exact List.take_succ_cons.trans (by rw [List.take_nil])
      | ok r => exact List.take_succ_cons.trans (by rw [ih])

theorem readFrames_error {chunks : List Bytes} (h : ∃ e, readFrame chunks = .error e) (n : Nat) :
    ∃ e, readFrames (n + 1) chunks = [.error e] := by
  obtain ⟨e, he⟩ := h
  exact ⟨e, by simp only [readFrames, he]⟩

/-- Payloads the reader accepts are read back. -/
theorem readFrames_written {ps : List Bytes} (hps : ∀ p ∈ ps, admissible p = true) {rest : Bytes}
    {chunks : List Bytes} (h : Pieces chunks (written ps ++ rest)) :
    ∃ left, Pieces left rest ∧
      ∀ n, readFrames (ps.length + n) chunks = ps.map Except.ok ++ readFrames n left := by
  induction ps generalizing chunks with
  | nil => exact ⟨chunks, h, fun n => by rw [List.length_nil, Nat.zero_add]; rfl⟩
  | cons p ps ih =>
      have hp : p.length ≤ maxFrame := of_decide_eq_true (hps p List.mem_cons_self)
      rw [written_cons, frame, asU32_of_le hp, List.append_assoc] at h
      obtain ⟨mid, hread, hmid⟩ := readFrame_ok rfl hp h
      obtain ⟨left, hleft, hall⟩ := ih (fun q hq => hps q (List.mem_cons_of_mem p hq)) hmid
      refine ⟨left, hleft, fun n => ?_⟩
      rw [List.length_cons, Nat.add_right_comm, readFrames, hread]
      simp only [hall n, List.map_cons, List.cons_append]

/-! ### What the calls should return

The answers are the payloads in order up to the first that cannot be returned, and
then an error.
-/

/-- The payloads in order, up to an error where the stream ends or one is too long. -/
def answers (ps : List Bytes) : List (Option Bytes) := (ps.takeWhile admissible).map some ++ [none]

structure Decoded (ps : List Bytes) : Prop where
  inOrder : ∀ chunks, Pieces chunks (written ps) →
    ∀ n, (readFrames n chunks).map Except.toOption = (answers ps).take n
  /-- Also of a stream that breaks off, only what was written is returned. -/
  complete : ∀ bs chunks, bs <+: written ps → Pieces chunks bs →
    ∀ n, (readFrames n chunks).filterMap Except.toOption <+: ps

/-- The first payload that is too long for the reader has a length that is too long in 32 bits. -/
def Unwrapped (ps : List Bytes) : Prop := ∀ p ∈ (ps.dropWhile admissible).head?, maxFrame < asU32 p.length

/-- The call behind the payloads the reader accepts fails. -/
theorem readFrame_behind {ps : List Bytes} (h : Unwrapped ps) {left : List Bytes}
    (hleft : Pieces left (written (ps.dropWhile admissible))) : ∃ e, readFrame left = .error e := by
  unfold Unwrapped at h
  rcases hrest : ps.dropWhile admissible with _ | ⟨p, qs⟩
  all_goals rw [hrest] at h hleft
  · exact ⟨_, readFrame_eof hleft⟩
  · rw [written_cons, frame, List.append_assoc] at hleft
    exact readFrame_large (h p rfl) (asU32_lt _) hleft

theorem inOrder_of_unwrapped {ps : List Bytes} (h : Unwrapped ps) {chunks : List Bytes}
    (hchunks : Pieces chunks (written ps)) (n : Nat) :
    (readFrames n chunks).map Except.toOption = (answers ps).take n := by
  have hsplit : ps.takeWhile admissible ++ ps.dropWhile admissible = ps := List.takeWhile_append_dropWhile
  have hadm : ∀ p ∈ ps.takeWhile admissible, admissible p = true := fun p hp => List.mem_takeWhile_imp hp
  have hwritten : written ps = written (ps.takeWhile admissible) ++ written (ps.dropWhile admissible) := by
    rw [← written_append, hsplit]
  obtain ⟨left, hleft, hall⟩ := readFrames_written hadm (hwritten ▸ hchunks)
  obtain ⟨e, he⟩ := readFrames_error (readFrame_behind h hleft) n
  have hmore : (readFrames (n + ((ps.takeWhile admissible).length + 1)) chunks).map Except.toOption =
      answers ps := by
    have hcalls : n + ((ps.takeWhile admissible).length + 1) =
        (ps.takeWhile admissible).length + (n + 1) := by omega
    rw [hcalls, hall, he, List.map_append, List.map_map]
    rfl
  rw [← take_readFrames n ((ps.takeWhile admissible).length + 1), List.map_take, hmore]

/-- A call on a stream that may break off returns the next payload or fails. -/
theorem readFrame_of_prefix {p : Bytes} (hp : admissible p = true ∨ maxFrame < asU32 p.length)
    {bs s : Bytes} (hbs : bs <+: frame p ++ s) {chunks : List Bytes} (h : Pieces chunks bs) :
    (∃ e, readFrame chunks = .error e) ∨
      ∃ left bs', admissible p = true ∧ bs' <+: s ∧ Pieces left bs' ∧ readFrame chunks = .ok (p, left) := by
  rcases hp with hp | hp
  · have hle : p.length ≤ maxFrame := of_decide_eq_true hp
    rcases Nat.lt_or_ge bs.length (frame p).length with hlt | hge
    · have hcut : bs <+: frame p :=
        List.prefix_of_prefix_length_le hbs (List.prefix_append _ s) (Nat.le_of_lt hlt)
      exact .inl ⟨_, readFrame_cut hle hcut hlt h⟩
    · obtain ⟨bs', rfl⟩ := List.prefix_of_prefix_length_le (List.prefix_append (frame p) s) hbs hge
      have hbs' : bs' <+: s := (List.prefix_append_right_inj _).mp hbs
      rw [frame, asU32_of_le hle] at h
      obtain ⟨left, hread, hleft⟩ := readFrame_ok rfl hle h
      exact .inr ⟨left, bs', hp, hbs', hleft, hread⟩
  · left
    rw [frame, List.append_assoc] at hbs
    rcases Nat.lt_or_ge bs.length 4 with hshort | hlong
    · refine ⟨.unexpectedEof, ?_⟩
      unfold readFrame
      simp only [readExact_short h hshort]
    · obtain ⟨body, rfl⟩ : toBeBytes (asU32 p.length) <+: bs :=
        List.prefix_of_prefix_length_le (List.prefix_append _ _) hbs hlong
      exact readFrame_large hp (asU32_lt _) h

theorem complete_of_unwrapped {ps : List Bytes} (h : Unwrapped ps) {bs : Bytes} {chunks : List Bytes}
    (hbs : bs <+: written ps) (hchunks : Pieces chunks bs) (n : Nat) :
    (readFrames n chunks).filterMap Except.toOption <+: ps := by
  induction ps generalizing bs chunks n with
  | nil =>
      obtain rfl := List.prefix_nil.mp hbs
      cases n with
      | zero => exact List.nil_prefix
      | succ n =>
          obtain ⟨e, he⟩ := readFrames_error ⟨_, readFrame_eof hchunks⟩ n
          rw [he]
          exact List.nil_prefix
  | cons p ps ih =>
      cases n with
      | zero => exact List.nil_prefix
      | succ n =>
          have hp : admissible p = true ∨ maxFrame < asU32 p.length := by
            rcases Bool.eq_false_or_eq_true (admissible p) with hadm | hadm
            · exact .inl hadm
            · refine .inr (h p ?_)
              rw [List.dropWhile_cons_of_neg (by simp [hadm])]
              rfl
          rw [written_cons] at hbs
          rcases readFrame_of_prefix hp hbs hchunks with herr | ⟨left, bs', hadm, hbs', hleft, hread⟩
          · obtain ⟨e, he⟩ := readFrames_error herr n
            rw [he]
            exact List.nil_prefix
          · have hrest : Unwrapped ps := by
              unfold Unwrapped at h
              rwa [List.dropWhile_cons_of_pos hadm] at h
            have hih := ih hrest hbs' hleft n
            simp only [readFrames, hread]
            exact (List.prefix_cons_inj p).mpr hih

/-- A payload whose length wraps to one the reader accepts is read back as its front. -/
theorem not_decoded_of_wrapped {ps qs : List Bytes} {p : Bytes} (hps : ∀ q ∈ ps, admissible q = true)
    (hlong : admissible p = false) (hwrap : asU32 p.length ≤ maxFrame) : ¬ Decoded (ps ++ p :: qs) := by
  intro h
  have hne : written (ps ++ p :: qs) ≠ [] := by
    rw [written_append, written_cons]
    exact List.append_ne_nil_of_right_ne_nil _ (by simp [frame, toBeBytes])
  have hpieces : Pieces [written (ps ++ p :: qs)] (written ps ++ (frame p ++ written qs)) :=
    ⟨by rw [List.flatten_singleton, written_append, written_cons], by simpa using hne⟩
  obtain ⟨left, hleft, hall⟩ := readFrames_written hps hpieces
  have hbody : (p.take (asU32 p.length)).length = asU32 p.length :=
    List.length_take_of_le (Nat.mod_le _ _)
  have hframe : frame p ++ written qs =
      toBeBytes (asU32 p.length) ++ p.take (asU32 p.length) ++ (p.drop (asU32 p.length) ++ written qs) := by
    rw [frame, List.append_assoc, List.append_assoc, ← List.append_assoc (List.take _ _),
      List.take_append_drop]
  obtain ⟨after, hread, -⟩ := readFrame_ok hbody hwrap (hframe ▸ hleft)
  have hpieces' : Pieces [written (ps ++ p :: qs)] (written (ps ++ p :: qs)) :=
    ⟨List.flatten_singleton, hpieces.ne_nil⟩
  have hcalls := h.inOrder _ hpieces' (ps.length + 1)
  have hanswers : answers (ps ++ p :: qs) = ps.map some ++ [none] := by
    rw [answers, List.takeWhile_append_of_pos hps, List.takeWhile_cons_of_neg (by simp [hlong]),
      List.append_nil]
  have hone : readFrames 1 left = [.ok (p.take (asU32 p.length))] := by
    simp only [readFrames, hread]
  have hlen : (answers (ps ++ p :: qs)).length ≤ ps.length + 1 := by
    rw [hanswers, List.length_append, List.length_map]
    exact Nat.le_refl _
  rw [hall, hone, List.take_of_length_le hlen, hanswers, List.map_append, List.map_map] at hcalls
  -- The last call should have failed.
  replace hcalls := List.append_cancel_left hcalls
  cases hcalls

/--
**Control frames decode to what was encoded, as long as no length wraps.**

A payload whose length wraps to one that the reader takes for admissible is read
back as its front, and everything behind it is read out of step, so the condition is
needed as it is.
-/
theorem decoded_iff (ps : List Bytes) : Decoded ps ↔ Unwrapped ps := by
  refine ⟨fun h p hp => ?_, fun h => ⟨fun _ hchunks n => inOrder_of_unwrapped h hchunks n,
    fun _ _ hbs hchunks n => complete_of_unwrapped h hbs hchunks n⟩⟩
  by_contra hwrap
  have hsplit : ps.takeWhile admissible ++ ps.dropWhile admissible = ps := List.takeWhile_append_dropWhile
  have hhead := List.head?_dropWhile_not admissible ps
  rw [Option.mem_def.mp hp] at hhead
  have hlong : admissible p = false := by simpa using hhead
  obtain ⟨qs, hqs⟩ := List.head?_eq_some_iff.mp (Option.mem_def.mp hp)
  rw [hqs] at hsplit
  rw [← hsplit] at h
  exact not_decoded_of_wrapped (fun q hq => List.mem_takeWhile_imp hq) hlong (Nat.le_of_not_lt hwrap) h

/-- Four gigabytes are read as nothing. -/
theorem not_decoded_four_gigabytes : ¬ Decoded [List.replicate 4294967296 0] := by
  have hnone : ∀ q ∈ ([] : List Bytes), admissible q = true := by simp
  refine not_decoded_of_wrapped hnone ?_ ?_
  · rw [admissible, List.length_replicate]
    rfl
  · rw [List.length_replicate]
    decide

end Thttpd.Migrate
