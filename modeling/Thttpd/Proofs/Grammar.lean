/-
The language of request detection.

A request line is two or three words between runs of blanks.  Two words make a
request at the end of their line; three words make one at the first place after it
where a line is empty.  `Completes` and `Malformed` say so in terms of the bytes alone.

Each state of the machine stands for what has been read so far (`Reads`).  The five
states of line endings remember the last three bytes, and that is enough to know
whether the next byte ends an empty line.

Soundness is one induction over the bytes, with `Reads` as its invariant.
Completeness takes a text of the grammar apart, and follows the machine through one
part after the other; each part is a run that enters a state and stays there.
-/
import Thttpd.Proofs.Parse

namespace Thttpd

open Text

/-! ### Words and blanks

The parts of a request line.  A blank is a space or a tab, and the end of a line a
carriage return or a line feed; every other byte belongs to a word.
-/

/-- The end of a line. -/
def isEol (c : UInt8) : Bool := isCr c || isLf c

/-- A run of bytes that are neither blank nor the end of a line. -/
def Word (w : Bytes) : Prop := ∀ c ∈ w, isBlank c = false ∧ isEol c = false

/-- A run of blanks, at least one. -/
def Blanks (bs : Bytes) : Prop := bs ≠ [] ∧ ∀ c ∈ bs, isBlank c = true

/-- A word, which may be empty, and blanks. -/
def OneWordBlanks (p : Bytes) : Prop := ∃ w bs, p = w ++ bs ∧ Word w ∧ Blanks bs

/-- Two words. -/
def TwoWords (p : Bytes) : Prop := ∃ q w, p = q ++ w ∧ OneWordBlanks q ∧ Word w ∧ w ≠ []

/-- Two words and blanks. -/
def TwoWordsBlanks (p : Bytes) : Prop := ∃ q bs, p = q ++ bs ∧ TwoWords q ∧ Blanks bs

/-- Three words. -/
def ThreeWords (p : Bytes) : Prop := ∃ q w, p = q ++ w ∧ TwoWordsBlanks q ∧ Word w ∧ w ≠ []

/-- Three words and blanks. -/
def ThreeWordsBlanks (p : Bytes) : Prop := ∃ q bs, p = q ++ bs ∧ ThreeWords q ∧ Blanks bs

/-- A whole request line with a version. -/
def FullLine (p : Bytes) : Prop := ThreeWords p ∨ ThreeWordsBlanks p

/-! ### Empty lines

A line is empty when its end follows the end of the line before it.  The machine
knows three ends of lines, a line feed, a carriage return, and the second followed
by the first, and an empty line is one of the three twice.
-/

/-- Bytes that end in an empty line. -/
def EmptyLineAtEnd (t : Bytes) : Prop :=
  [10, 10] <:+ t ∨ [13, 13] <:+ t ∨ [13, 10, 13, 10] <:+ t

/-- Bytes none of whose prefixes ends in an empty line. -/
def NoEmptyLine (t : Bytes) : Prop := ∀ u, u <+: t → ¬ EmptyLineAtEnd u

/-- The bytes from the end of the request line to the first empty line. -/
structure HeadEnd (t : Bytes) : Prop where
  eol : ∃ e rest, t = e :: rest ∧ isEol e = true
  ends : EmptyLineAtEnd t
  first : ∀ u, u <+: t → u ≠ t → ¬ EmptyLineAtEnd u

/-! ### The language

Both are statements about bytes alone; no state of the machine occurs in them.
-/

/--
A request is complete after `n` bytes.  Either its line has two words and ends, or it
has three, and byte `n` ends the first empty line after it.
-/
inductive Completes (s : Bytes) : Nat → Prop
  | twoWords {p rest : Bytes} {e : UInt8} :
      TwoWords p → isEol e = true → s = p ++ e :: rest → Completes s (p.length + 1)
  | threeWords {p t rest : Bytes} :
      FullLine p → HeadEnd t → s = p ++ t ++ rest → Completes s (p.length + t.length)

/-- Byte `n` makes the request malformed. -/
inductive Malformed (s : Bytes) : Nat → Prop
  | firstWord {p rest : Bytes} {e : UInt8} :
      Word p → isEol e = true → s = p ++ e :: rest → Malformed s p.length
  | firstBlanks {p rest : Bytes} {e : UInt8} :
      OneWordBlanks p → isEol e = true → s = p ++ e :: rest → Malformed s p.length
  | secondBlanks {p rest : Bytes} {e : UInt8} :
      TwoWordsBlanks p → isEol e = true → s = p ++ e :: rest → Malformed s p.length
  | fourthWord {p rest : Bytes} {c : UInt8} :
      ThreeWordsBlanks p → isBlank c = false → isEol c = false → s = p ++ c :: rest →
      Malformed s p.length

/-! ### What a byte does

Words grow at their end, as the machine reads them.
-/

theorem isEol_iff {c : UInt8} : isEol c = true ↔ c = 13 ∨ c = 10 := by simp [isEol]

theorem isEol_eq_false {c : UInt8} (h : isEol c = false) : isCr c = false ∧ isLf c = false := by
  unfold isEol at h
  exact Bool.or_eq_false_iff.mp h

/-- A byte is blank, the end of a line, or part of a word. -/
theorem byte_cases (c : UInt8) :
    (isBlank c = true ∧ isCr c = false ∧ isLf c = false) ∨
    (isBlank c = false ∧ isCr c = true ∧ isLf c = false) ∨
    (isBlank c = false ∧ isCr c = false ∧ isLf c = true) ∨
    (isBlank c = false ∧ isCr c = false ∧ isLf c = false) := by
  simp only [Bool.eq_false_iff, ne_eq, isBlank_iff, isCr_iff, isLf_iff]
  by_cases hblank : c = 32 ∨ c = 9
  · rcases hblank with rfl | rfl <;> simp
  · by_cases hcr : c = 13
    · subst hcr
      simp
    · by_cases hlf : c = 10
      · subst hlf
        simp
      · simp [hblank, hcr, hlf]

theorem Word.nil : Word [] := by
  intro c hc
  cases hc

theorem Word.concat {w : Bytes} {c : UInt8} (h : Word w) (hb : isBlank c = false)
    (he : isEol c = false) : Word (w ++ [c]) := by
  intro d hd
  rcases List.mem_append.mp hd with hd | hd
  · exact h d hd
  · rw [List.mem_singleton.mp hd]
    exact ⟨hb, he⟩

theorem Blanks.concat {bs : Bytes} {c : UInt8} (h : Blanks bs) (hc : isBlank c = true) :
    Blanks (bs ++ [c]) := by
  refine ⟨by simp, ?_⟩
  intro d hd
  rcases List.mem_append.mp hd with hd | hd
  · exact h.2 d hd
  · rw [List.mem_singleton.mp hd]
    exact hc

theorem Blanks.single {c : UInt8} (hc : isBlank c = true) : Blanks [c] := by
  refine ⟨by simp, ?_⟩
  intro d hd
  rw [List.mem_singleton.mp hd]
  exact hc

theorem Word.single {c : UInt8} (hb : isBlank c = false) (he : isEol c = false) : Word [c] := by
  intro d hd
  rw [List.mem_singleton.mp hd]
  exact ⟨hb, he⟩

/-! ### The line-ending states

These five states remember the end of what was read, so they are a function of it,
and `lineStateRev` is that function.  Read from its last byte, the text decides
whether it ends in an empty line, and the next byte ends one exactly from the states
that say so.
-/

/-- The state after these bytes, the last one first. -/
def lineStateRev : Bytes → ParseState
  | [] => .line
  | c :: r =>
      if isCr c then
        match r with
        | d :: e :: _ => if isLf d && isCr e then .crlfcr else .cr
        | _ => .cr
      else if isLf c then
        match r with
        | d :: _ => if isCr d then .crlf else .lf
        | [] => .lf
      else .line

/-- The state after the bytes `t` of a request's head. -/
def lineState (t : Bytes) : ParseState := lineStateRev t.reverse

/-- Whether the bytes end in an empty line, the last one first. -/
def emptyLineRev : Bytes → Bool
  | c :: d :: r =>
      isLf c && isLf d || isCr c && isCr d ||
        isLf c && isCr d && match r with
          | e :: f :: _ => isLf e && isCr f
          | _ => false
  | _ => false

theorem emptyLineAtEnd_iff (t : Bytes) : EmptyLineAtEnd t ↔ emptyLineRev t.reverse = true := by
  unfold EmptyLineAtEnd
  rw [← List.reverse_prefix, ← List.reverse_prefix, ← List.reverse_prefix]
  generalize t.reverse = r
  match r with
  | [] => simp [emptyLineRev]
  | [c] => simp [emptyLineRev]
  | [c, d] => simp [emptyLineRev, @eq_comm UInt8 10, @eq_comm UInt8 13]
  | [c, d, e] => simp [emptyLineRev, @eq_comm UInt8 10, @eq_comm UInt8 13]
  | c :: d :: e :: f :: r =>
      simp [emptyLineRev, @eq_comm UInt8 10, @eq_comm UInt8 13, or_assoc, and_assoc]

instance (t : Bytes) : Decidable (EmptyLineAtEnd t) :=
  decidable_of_iff _ (emptyLineAtEnd_iff t).symm

theorem parseByte_lineStateRev (r : Bytes) (c : UInt8) :
    parseByte (lineStateRev r) c
      = if emptyLineRev (c :: r) then .done else .next (lineStateRev (c :: r)) := by
  match r with
  | [] => rcases byte_cases c with h | h | h | h <;> simp [lineStateRev, emptyLineRev, parseByte, h]
  | [d] =>
      rcases byte_cases d with h | h | h | h <;> rcases byte_cases c with h' | h' | h' | h' <;>
        simp [lineStateRev, emptyLineRev, parseByte, h, h']
  | [d, e] =>
      rcases byte_cases d with h | h | h | h <;> rcases byte_cases c with h' | h' | h' | h' <;>
        cases hcr : isCr e <;> simp [lineStateRev, emptyLineRev, parseByte, h, h', hcr]
  | d :: e :: f :: r =>
      rcases byte_cases d with h | h | h | h <;> rcases byte_cases c with h' | h' | h' | h' <;>
        cases hcr : isCr e <;> cases hlf : isLf e <;> cases hcr' : isCr f <;>
        simp [lineStateRev, emptyLineRev, parseByte, h, h', hcr, hlf, hcr']

/-- **The line-ending states know when a line is empty.** -/
theorem parseByte_lineState (t : Bytes) (c : UInt8) :
    parseByte (lineState t) c
      = if EmptyLineAtEnd (t ++ [c]) then .done else .next (lineState (t ++ [c])) := by
  unfold lineState
  rw [parseByte_lineStateRev]
  simp only [emptyLineAtEnd_iff, List.reverse_append, List.reverse_singleton,
    List.singleton_append]

/-! ### What each state stands for

`Reads` is the invariant of the machine.  A state in the request line stands for the
words and blanks read so far, and a state behind it for the request line and a
stretch without an empty line.
-/

/-- Bytes that begin with the end of a line. -/
def AtEol (t : Bytes) : Prop := ∃ e rest, t = e :: rest ∧ isEol e = true

/-- A head that goes on: the request line and what follows it, without an empty line. -/
def InHead (state : ParseState) (p : Bytes) : Prop :=
  ∃ q t, p = q ++ t ∧ FullLine q ∧ AtEol t ∧ NoEmptyLine t ∧ state = lineState t

/--
What has been read when the machine is in a state: for each state the texts that
lead there.  This is the invariant of the soundness proof, and it says what the
states of the source are for.
-/
def Reads (state : ParseState) (p : Bytes) : Prop :=
  match state with
  | .firstWord => Word p
  | .firstWs => OneWordBlanks p
  | .secondWord => TwoWords p
  | .secondWs => TwoWordsBlanks p
  | .thirdWord => ThreeWords p
  | .thirdWs => ThreeWordsBlanks p
  | .gotRequest => False
  | .bogus => False
  | state => InHead state p

theorem NoEmptyLine.concat {t : Bytes} {c : UInt8} (h : NoEmptyLine t)
    (hc : ¬ EmptyLineAtEnd (t ++ [c])) : NoEmptyLine (t ++ [c]) := by
  intro u hu
  rcases List.prefix_concat_iff.mp hu with rfl | hu
  · exact hc
  · exact h u hu

theorem not_emptyLineAtEnd_single (c : UInt8) : ¬ EmptyLineAtEnd [c] := by
  rw [emptyLineAtEnd_iff]
  simp [emptyLineRev]

theorem NoEmptyLine.single (c : UInt8) : NoEmptyLine [c] := by
  have hnil : NoEmptyLine [] := by
    intro u hu
    rw [List.prefix_nil.mp hu, emptyLineAtEnd_iff]
    simp [emptyLineRev]
  exact hnil.concat (not_emptyLineAtEnd_single c)

theorem AtEol.append {t : Bytes} (h : AtEol t) (u : Bytes) : AtEol (t ++ u) := by
  obtain ⟨e, rest, rfl, he⟩ := h
  exact ⟨e, rest ++ u, rfl, he⟩

/--
What one byte does after `p`: it is read, completes a request, or makes it
malformed.
-/
inductive After (p : Bytes) (c : UInt8) : ParseStep → Prop
  | reads {state : ParseState} : Reads state (p ++ [c]) → After p c (.next state)
  | done : (∀ rest, Completes (p ++ c :: rest) (p.length + 1)) → After p c .done
  | bad : (∀ rest, Malformed (p ++ c :: rest) p.length) → After p c .bad

/-- The end of a full request line. -/
theorem after_fullLine {p : Bytes} {e : UInt8} (h : FullLine p) (he : isEol e = true) :
    InHead (if isCr e then .cr else .lf) (p ++ [e]) := by
  refine ⟨p, [e], rfl, h, ⟨e, [], rfl, he⟩, .single e, ?_⟩
  rcases isEol_iff.mp he with rfl | rfl <;> rfl

theorem InHead.reads {state : ParseState} {p : Bytes} (h : InHead state p) : Reads state p := by
  obtain ⟨q, t, hp, hq, ht, hno, hstate⟩ := h
  have hin : InHead state p := ⟨q, t, hp, hq, ht, hno, hstate⟩
  obtain ⟨c, r, hr⟩ : ∃ c r, t.reverse = c :: r := by
    obtain ⟨e, rest, rfl, -⟩ := ht
    exact List.exists_cons_of_ne_nil (by simp)
  unfold lineState at hstate
  rw [hr] at hstate
  unfold lineStateRev at hstate
  repeat' split at hstate
  all_goals
    subst hstate
    exact hin

theorem InHead.after {state : ParseState} {p : Bytes} (h : InHead state p) (c : UInt8) :
    After p c (parseByte state c) := by
  obtain ⟨q, t, rfl, hq, ht, hno, rfl⟩ := h
  rw [parseByte_lineState]
  split
  · rename_i hend
    refine .done ?_
    intro rest
    have hlen : (q ++ t).length + 1 = q.length + (t ++ [c]).length := by
      simp [Nat.add_assoc]
    have hsplit : q ++ t ++ c :: rest = q ++ (t ++ [c]) ++ rest := by simp
    rw [hlen]
    refine .threeWords hq ⟨ht.append [c], hend, ?_⟩ hsplit
    intro u hu hne
    exact hno u ((List.prefix_concat_iff.mp hu).resolve_left hne)
  · rename_i hend
    refine .reads (InHead.reads ⟨q, t ++ [c], by simp, hq, ht.append [c], hno.concat hend, rfl⟩)

/-- **Every state reads on, or ends as the grammar says.** -/
theorem Reads.after {state : ParseState} {p : Bytes} (h : Reads state p) (c : UInt8) :
    After p c (parseByte state c) := by
  have heol : isEol c = (isCr c || isLf c) := rfl
  cases state with
  | firstWord =>
      rcases byte_cases c with hc | hc | hc | hc <;> simp only [parseByte, hc] <;>
        simp only [hc, Bool.or_false, Bool.false_or] at heol
      · exact .reads ⟨p, [c], rfl, h, .single hc.1⟩
      · exact .bad fun rest => .firstWord h heol rfl
      · exact .bad fun rest => .firstWord h heol rfl
      · exact .reads (Word.concat h hc.1 heol)
  | firstWs =>
      rcases byte_cases c with hc | hc | hc | hc <;> simp only [parseByte, hc] <;>
        simp only [hc, Bool.or_false, Bool.false_or] at heol
      · obtain ⟨w, bs, rfl, hw, hbs⟩ := h
        exact .reads ⟨w, bs ++ [c], by simp, hw, hbs.concat hc.1⟩
      · exact .bad fun rest => .firstBlanks h heol rfl
      · exact .bad fun rest => .firstBlanks h heol rfl
      · exact .reads ⟨p, [c], rfl, h, .single hc.1 heol, by simp⟩
  | secondWord =>
      rcases byte_cases c with hc | hc | hc | hc <;> simp only [parseByte, hc] <;>
        simp only [hc, Bool.or_false, Bool.false_or] at heol
      · exact .reads ⟨p, [c], rfl, h, .single hc.1⟩
      · exact .done fun rest => .twoWords h heol rfl
      · exact .done fun rest => .twoWords h heol rfl
      · obtain ⟨q, w, rfl, hq, hw, hne⟩ := h
        exact .reads ⟨q, w ++ [c], by simp, hq, hw.concat hc.1 heol, by simp⟩
  | secondWs =>
      rcases byte_cases c with hc | hc | hc | hc <;> simp only [parseByte, hc] <;>
        simp only [hc, Bool.or_false, Bool.false_or] at heol
      · obtain ⟨q, bs, rfl, hq, hbs⟩ := h
        exact .reads ⟨q, bs ++ [c], by simp, hq, hbs.concat hc.1⟩
      · exact .bad fun rest => .secondBlanks h heol rfl
      · exact .bad fun rest => .secondBlanks h heol rfl
      · exact .reads ⟨p, [c], rfl, h, .single hc.1 heol, by simp⟩
  | thirdWord =>
      rcases byte_cases c with hc | hc | hc | hc <;> simp only [parseByte, hc] <;>
        simp only [hc, Bool.or_false, Bool.false_or] at heol
      · exact .reads ⟨p, [c], rfl, h, .single hc.1⟩
      · have hin := after_fullLine (.inl h) heol
        rw [if_pos hc.2.1] at hin
        exact .reads hin
      · have hin := after_fullLine (.inl h) heol
        rw [if_neg (by simp [hc.2.1])] at hin
        exact .reads hin
      · obtain ⟨q, w, rfl, hq, hw, hne⟩ := h
        exact .reads ⟨q, w ++ [c], by simp, hq, hw.concat hc.1 heol, by simp⟩
  | thirdWs =>
      rcases byte_cases c with hc | hc | hc | hc <;> simp only [parseByte, hc] <;>
        simp only [hc, Bool.or_false, Bool.false_or] at heol
      · obtain ⟨q, bs, rfl, hq, hbs⟩ := h
        exact .reads ⟨q, bs ++ [c], by simp, hq, hbs.concat hc.1⟩
      · have hin := after_fullLine (.inr h) heol
        rw [if_pos hc.2.1] at hin
        exact .reads hin
      · have hin := after_fullLine (.inr h) heol
        rw [if_neg (by simp [hc.2.1])] at hin
        exact .reads hin
      · exact .bad fun rest => .fourthWord h hc.1 heol rfl
  | lf => exact InHead.after h c
  | cr => exact InHead.after h c
  | crlf => exact InHead.after h c
  | crlfcr => exact InHead.after h c
  | line => exact InHead.after h c
  | gotRequest => exact h.elim
  | bogus => exact h.elim

/-! ### Soundness

Every verdict is given for a text of its kind.
-/

/-- What a verdict means for the bytes `s`. -/
def Meant (s : Bytes) : GotRequest × Nat × ParseState → Prop
  | (.gotRequest, n, _) => Completes s n
  | (.badRequest, n, _) => Malformed s n
  | (.noRequest, n, state) => n = s.length ∧ Reads state s

/-- **Every verdict means what it says.** -/
theorem gotRequestFrom_meant : ∀ (rest p : Bytes) (state : ParseState), Reads state p →
    Meant (p ++ rest) (gotRequestFrom rest p.length state) := by
  intro rest
  induction rest with
  | nil =>
      intro p state h
      rw [List.append_nil]
      exact ⟨rfl, h⟩
  | cons c rest ih =>
      intro p state h
      have hafter := h.after c
      unfold gotRequestFrom
      generalize parseByte state c = step at hafter
      cases hafter with
      | reads hread =>
          have hih := ih (p ++ [c]) _ hread
          rw [List.append_assoc, List.length_append] at hih
          exact hih
      | done hdone => exact hdone rest
      | bad hbad => exact hbad rest

/-! ### Completeness

Every text of a kind gets its verdict.  A word keeps the machine in the state its
first byte led to, a run of blanks does the same, and the line-ending states are
followed by the function they are.
-/

/-- A run of bytes that lead to a state and stay there. -/
theorem gotRequestFrom_enter {state state' : ParseState} {run : Bytes} (hne : run ≠ [])
    (henter : ∀ c ∈ run, parseByte state c = .next state')
    (hstay : ∀ c ∈ run, parseByte state' c = .next state') (rest : Bytes) (idx : Nat) :
    gotRequestFrom (run ++ rest) idx state = gotRequestFrom rest (idx + run.length) state' := by
  induction run generalizing state idx with
  | nil => exact absurd rfl hne
  | cons c run ih =>
      simp only [List.cons_append, gotRequestFrom, henter c (by simp)]
      cases run with
      | nil => rfl
      | cons d run =>
          rw [ih (by simp) (fun b hb => hstay b (by simp [hb])) (fun b hb => hstay b (by simp [hb])),
            List.length_cons (a := c), Nat.add_assoc, Nat.add_comm 1]

theorem gotRequestFrom_word {state state' : ParseState} {w : Bytes} (hw : Word w) (hne : w ≠ [])
    (henter : ∀ c, isBlank c = false → isEol c = false → parseByte state c = .next state')
    (hstay : ∀ c, isBlank c = false → isEol c = false → parseByte state' c = .next state')
    (rest : Bytes) (idx : Nat) :
    gotRequestFrom (w ++ rest) idx state = gotRequestFrom rest (idx + w.length) state' :=
  gotRequestFrom_enter hne (fun c hc => henter c (hw c hc).1 (hw c hc).2)
    (fun c hc => hstay c (hw c hc).1 (hw c hc).2) rest idx

theorem gotRequestFrom_blanks {state state' : ParseState} {bs : Bytes} (hbs : Blanks bs)
    (henter : ∀ c, isBlank c = true → parseByte state c = .next state')
    (hstay : ∀ c, isBlank c = true → parseByte state' c = .next state')
    (rest : Bytes) (idx : Nat) :
    gotRequestFrom (bs ++ rest) idx state = gotRequestFrom rest (idx + bs.length) state' :=
  gotRequestFrom_enter hbs.1 (fun c hc => henter c (hbs.2 c hc))
    (fun c hc => hstay c (hbs.2 c hc)) rest idx

section Runs

variable {p : Bytes} (rest : Bytes)

theorem word_run (h : Word p) :
    gotRequestFrom (p ++ rest) 0 .firstWord = gotRequestFrom rest p.length .firstWord := by
  by_cases hne : p = []
  · subst hne
    rfl
  · have hstay : ∀ c, isBlank c = false → isEol c = false →
        parseByte .firstWord c = .next .firstWord := by
      intro c hb he
      simp [parseByte, hb, isEol_eq_false he]
    rw [gotRequestFrom_word h hne hstay hstay, Nat.zero_add]

theorem oneWordBlanks_run (h : OneWordBlanks p) :
    gotRequestFrom (p ++ rest) 0 .firstWord = gotRequestFrom rest p.length .firstWs := by
  obtain ⟨w, bs, rfl, hw, hbs⟩ := h
  rw [List.append_assoc, word_run _ hw, gotRequestFrom_blanks hbs, List.length_append]
  all_goals
    intro c hc
    simp [parseByte, hc]

theorem twoWords_run (h : TwoWords p) :
    gotRequestFrom (p ++ rest) 0 .firstWord = gotRequestFrom rest p.length .secondWord := by
  obtain ⟨q, w, rfl, hq, hw, hne⟩ := h
  rw [List.append_assoc, oneWordBlanks_run _ hq, gotRequestFrom_word hw hne, List.length_append]
  all_goals
    intro c hb he
    simp [parseByte, hb, isEol_eq_false he]

theorem twoWordsBlanks_run (h : TwoWordsBlanks p) :
    gotRequestFrom (p ++ rest) 0 .firstWord = gotRequestFrom rest p.length .secondWs := by
  obtain ⟨q, bs, rfl, hq, hbs⟩ := h
  rw [List.append_assoc, twoWords_run _ hq, gotRequestFrom_blanks hbs, List.length_append]
  all_goals
    intro c hc
    simp [parseByte, hc]

theorem threeWords_run (h : ThreeWords p) :
    gotRequestFrom (p ++ rest) 0 .firstWord = gotRequestFrom rest p.length .thirdWord := by
  obtain ⟨q, w, rfl, hq, hw, hne⟩ := h
  rw [List.append_assoc, twoWordsBlanks_run _ hq, gotRequestFrom_word hw hne, List.length_append]
  all_goals
    intro c hb he
    simp [parseByte, hb, isEol_eq_false he]

theorem threeWordsBlanks_run (h : ThreeWordsBlanks p) :
    gotRequestFrom (p ++ rest) 0 .firstWord = gotRequestFrom rest p.length .thirdWs := by
  obtain ⟨q, bs, rfl, hq, hbs⟩ := h
  rw [List.append_assoc, threeWords_run _ hq, gotRequestFrom_blanks hbs, List.length_append]
  all_goals
    intro c hc
    simp [parseByte, hc]

/-- The end of a full line starts the line-ending states. -/
theorem fullLine_run {e : UInt8} (h : FullLine p) (he : isEol e = true) :
    gotRequestFrom (p ++ e :: rest) 0 .firstWord
      = gotRequestFrom rest (p.length + 1) (lineState [e]) := by
  rcases h with h | h
  · rw [threeWords_run _ h]
    rcases isEol_iff.mp he with rfl | rfl <;> rfl
  · rw [threeWordsBlanks_run _ h]
    rcases isEol_iff.mp he with rfl | rfl <;> rfl

end Runs

/-- The line-ending states up to the first empty line. -/
theorem head_run (rest : Bytes) : ∀ (u t : Bytes) (idx : Nat), u ≠ [] →
    EmptyLineAtEnd (t ++ u) → (∀ v, v <+: u → v ≠ [] → v ≠ u → ¬ EmptyLineAtEnd (t ++ v)) →
    gotRequestFrom (u ++ rest) idx (lineState t) = (.gotRequest, idx + u.length, .gotRequest) := by
  intro u
  induction u with
  | nil => intro t idx hne; exact absurd rfl hne
  | cons c u ih =>
      intro t idx _ hend hfirst
      rw [List.cons_append, gotRequestFrom, parseByte_lineState]
      by_cases hu : u = []
      · subst hu
        rw [if_pos hend]
        rfl
      · have hc : ¬ EmptyLineAtEnd (t ++ [c]) := by
          refine hfirst [c] (by simp) (by simp) ?_
          intro h
          exact hu (List.cons.inj h).2.symm
        rw [if_neg hc]
        have hsplit : ∀ v, t ++ c :: v = t ++ [c] ++ v := by simp
        have hih := ih (t ++ [c]) (idx + 1) hu (by rw [← hsplit]; exact hend) (by
          intro v hv hne hvu
          rw [← hsplit]
          refine hfirst (c :: v) ?_ (by simp) ?_
          · exact List.cons_prefix_cons.mpr ⟨rfl, hv⟩
          · intro h
            exact hvu (List.cons.inj h).2)
        rw [List.length_cons, Nat.add_comm u.length, ← Nat.add_assoc]
        exact hih

theorem Completes.run {s : Bytes} {n : Nat} (h : Completes s n) :
    gotRequest s 0 .firstWord = (.gotRequest, n, .gotRequest) := by
  unfold gotRequest
  rw [List.drop_zero]
  cases h with
  | @twoWords p rest e hp he hs =>
      rw [hs, twoWords_run _ hp]
      rcases isEol_iff.mp he with rfl | rfl <;> rfl
  | @threeWords p t rest hp ht hs =>
      obtain ⟨e, u, rfl, he⟩ := ht.eol
      rw [hs, List.append_assoc, List.cons_append, fullLine_run _ hp he,
        head_run rest u [e] (p.length + 1), List.length_cons]
      · rw [Nat.add_comm u.length, ← Nat.add_assoc]
      · intro hu
        subst hu
        exact not_emptyLineAtEnd_single e ht.ends
      · exact ht.ends
      · intro v hv _ hvu
        refine ht.first (e :: v) (List.cons_prefix_cons.mpr ⟨rfl, hv⟩) ?_
        intro h
        exact hvu (List.cons.inj h).2

theorem Malformed.run {s : Bytes} {n : Nat} (h : Malformed s n) :
    gotRequest s 0 .firstWord = (.badRequest, n, .bogus) := by
  unfold gotRequest
  rw [List.drop_zero]
  cases h with
  | firstWord hp he hs =>
      rw [hs, word_run _ hp]
      rcases isEol_iff.mp he with rfl | rfl <;> rfl
  | firstBlanks hp he hs =>
      rw [hs, oneWordBlanks_run _ hp]
      rcases isEol_iff.mp he with rfl | rfl <;> rfl
  | secondBlanks hp he hs =>
      rw [hs, twoWordsBlanks_run _ hp]
      rcases isEol_iff.mp he with rfl | rfl <;> rfl
  | fourthWord hp hb he hs =>
      rw [hs, threeWordsBlanks_run _ hp]
      simp [gotRequestFrom, parseByte, hb, isEol_eq_false he, ParseStep.bad]

/-- What the machine takes for a request is one. -/
theorem completes_of_gotRequest {s : Bytes} {n : Nat} {state : ParseState}
    (h : gotRequest s 0 .firstWord = (.gotRequest, n, state)) : Completes s n := by
  have hmeant : Meant s (gotRequest s 0 .firstWord) :=
    gotRequestFrom_meant s [] .firstWord Word.nil
  rw [h] at hmeant
  exact hmeant

/--
**Request detection accepts exactly its grammar**: it finds a request where one is
complete, calls malformed what is, at the byte that makes it so, and otherwise finds
nothing.
-/
theorem got_request_grammar (s : Bytes) :
    (∀ n, (∃ state, gotRequest s 0 .firstWord = (.gotRequest, n, state)) ↔ Completes s n) ∧
    (∀ n, (∃ state, gotRequest s 0 .firstWord = (.badRequest, n, state)) ↔ Malformed s n) ∧
    ((gotRequest s 0 .firstWord).1 = .noRequest ↔ ∀ n, ¬ Completes s n ∧ ¬ Malformed s n) := by
  have hmeant : Meant s (gotRequest s 0 .firstWord) :=
    gotRequestFrom_meant s [] .firstWord Word.nil
  refine ⟨?_, ?_, ?_⟩
  · intro n
    constructor
    · rintro ⟨state, h⟩
      exact completes_of_gotRequest h
    · intro h
      exact ⟨_, h.run⟩
  · intro n
    constructor
    · rintro ⟨state, h⟩
      rw [h] at hmeant
      exact hmeant
    · intro h
      exact ⟨_, h.run⟩
  · constructor
    · intro hno n
      constructor
      · intro h
        rw [h.run] at hno
        cases hno
      · intro h
        rw [h.run] at hno
        cases hno
    · intro hnone
      rcases hr : gotRequest s 0 .firstWord with ⟨verdict, n, state⟩
      rw [hr] at hmeant
      cases verdict with
      | noRequest => rfl
      | gotRequest => exact absurd hmeant (hnone n).1
      | badRequest => exact absurd hmeant (hnone n).2

end Thttpd
