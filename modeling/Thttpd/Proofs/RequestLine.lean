/-
Three readings of the request line.

The detection machine cuts the line into words at blanks.  `parse_method` takes the
first word the same way.  `process_request` decodes the bytes before the first
carriage return and splits them at white space of any kind, so a word that holds
white space the machine does not know of falls into pieces, an empty first word into
none, and what follows moves up or down.

The line feed after a request line does no harm: it is white space too, and what comes
after it are later words.

The comparison is by words.  The machine's are bytes, the split's are texts, and a
decoded word of the machine is a word of the split just when it holds no white space
of any kind; which words move if it does is a matter of counting.
-/
import Thttpd.Proofs.Grammar
import Thttpd.Core.Request

namespace Thttpd

open Text

/-! ### The words of the machine

They are read off the machine byte by byte: a byte belongs to a word when the
machine is in the state of that word after it.  For a request of the grammar these
are the words of its line.
-/

/-- The bytes that the machine reads in the state `word`. -/
def wordBytes (word : ParseState) : Bytes → ParseState → Bytes
  | [], _ => []
  | c :: rest, state =>
      match parseByte state c with
      | .next state' =>
          if state' = word then c :: wordBytes word rest state' else wordBytes word rest state'
      | .stop _ _ _ => []

def firstWord (s : Bytes) : Bytes := wordBytes .firstWord s .firstWord

def secondWord (s : Bytes) : Bytes := wordBytes .secondWord s .firstWord

/-- Empty when there are only two words. -/
def thirdWord (s : Bytes) : Bytes := wordBytes .thirdWord s .firstWord

theorem wordBytes_next {word state state' : ParseState} {c : UInt8} (rest : Bytes)
    (h : parseByte state c = .next state') :
    wordBytes word (c :: rest) state
      = (if state' = word then [c] else []) ++ wordBytes word rest state' := by
  rw [wordBytes, h]
  simp only
  split <;> rfl

/-- A run of bytes that lead to a state and stay there. -/
theorem wordBytes_enter (word : ParseState) {state state' : ParseState} {run : Bytes}
    (hne : run ≠ []) (henter : ∀ c ∈ run, parseByte state c = .next state')
    (hstay : ∀ c ∈ run, parseByte state' c = .next state') (rest : Bytes) :
    wordBytes word (run ++ rest) state
      = (if state' = word then run else []) ++ wordBytes word rest state' := by
  induction run generalizing state with
  | nil => exact absurd rfl hne
  | cons c run ih =>
      rw [List.cons_append, wordBytes_next _ (henter c (by simp))]
      cases run with
      | nil => rfl
      | cons d run =>
          rw [ih (by simp) (fun b hb => hstay b (by simp [hb])) (fun b hb => hstay b (by simp [hb]))]
          split <;> simp

/-- The states of words and blanks. -/
def ParseState.inLine : ParseState → Bool
  | .firstWord | .firstWs | .secondWord | .secondWs | .thirdWord | .thirdWs => true
  | _ => false

theorem lineState_inLine (t : Bytes) : (lineState t).inLine = false := by
  unfold lineState lineStateRev
  repeat' split
  all_goals rfl

/-- After the request line the machine reads no word. -/
theorem wordBytes_lineState {word : ParseState} (hword : word.inLine = true) :
    ∀ (rest t : Bytes), wordBytes word rest (lineState t) = [] := by
  intro rest
  induction rest with
  | nil => intro t; rfl
  | cons c rest ih =>
      intro t
      rw [wordBytes, parseByte_lineState]
      split
      · rename_i state' hnext
        split at hnext
        · cases hnext
        · cases hnext
          have hne : lineState (t ++ [c]) ≠ word := by
            intro h
            have := lineState_inLine (t ++ [c])
            rw [h, hword] at this
            cases this
          rw [if_neg hne]
          exact ih (t ++ [c])
      · rfl

section Words

variable (word : ParseState) (rest : Bytes) {p w bs : Bytes}

theorem wordBytes_first (hw : Word w) :
    wordBytes word (w ++ rest) .firstWord
      = (if .firstWord = word then w else []) ++ wordBytes word rest .firstWord := by
  by_cases hne : w = []
  · subst hne
    simp
  · have hstay : ∀ c ∈ w, parseByte .firstWord c = .next .firstWord := by
      intro c hc
      simp [parseByte, (hw c hc).1, isEol_eq_false (hw c hc).2]
    exact wordBytes_enter word hne hstay hstay rest

theorem wordBytes_firstWs (hbs : Blanks bs) :
    wordBytes word (bs ++ rest) .firstWord
      = (if .firstWs = word then bs else []) ++ wordBytes word rest .firstWs :=
  wordBytes_enter word hbs.1 (fun c hc => by simp [parseByte, hbs.2 c hc])
    (fun c hc => by simp [parseByte, hbs.2 c hc]) rest

theorem wordBytes_second (hw : Word w) (hne : w ≠ []) :
    wordBytes word (w ++ rest) .firstWs
      = (if .secondWord = word then w else []) ++ wordBytes word rest .secondWord :=
  wordBytes_enter word hne
    (fun c hc => by simp [parseByte, (hw c hc).1, isEol_eq_false (hw c hc).2])
    (fun c hc => by simp [parseByte, (hw c hc).1, isEol_eq_false (hw c hc).2]) rest

theorem wordBytes_secondWs (hbs : Blanks bs) :
    wordBytes word (bs ++ rest) .secondWord
      = (if .secondWs = word then bs else []) ++ wordBytes word rest .secondWs :=
  wordBytes_enter word hbs.1 (fun c hc => by simp [parseByte, hbs.2 c hc])
    (fun c hc => by simp [parseByte, hbs.2 c hc]) rest

theorem wordBytes_third (hw : Word w) (hne : w ≠ []) :
    wordBytes word (w ++ rest) .secondWs
      = (if .thirdWord = word then w else []) ++ wordBytes word rest .thirdWord :=
  wordBytes_enter word hne
    (fun c hc => by simp [parseByte, (hw c hc).1, isEol_eq_false (hw c hc).2])
    (fun c hc => by simp [parseByte, (hw c hc).1, isEol_eq_false (hw c hc).2]) rest

theorem wordBytes_thirdWs (hbs : Blanks bs) :
    wordBytes word (bs ++ rest) .thirdWord
      = (if .thirdWs = word then bs else []) ++ wordBytes word rest .thirdWs :=
  wordBytes_enter word hbs.1 (fun c hc => by simp [parseByte, hbs.2 c hc])
    (fun c hc => by simp [parseByte, hbs.2 c hc]) rest

end Words

/-! ### The words of the split

A text is split at every run of white space, and the line of a request is followed
by what comes up to the first carriage return, which may be the lines that a bare
line feed has ended.
-/

/-- The runs between white space, once the bytes are decoded. -/
def pieces (bs : Bytes) : List Str := splitWhitespace (fromUtf8Lossy bs)

/-- A byte that is white space to everybody. -/
def isSpaceByte (c : UInt8) : Bool := isBlank c || isLf c

theorem isSpaceByte_ascii {c : UInt8} (h : isSpaceByte c = true) :
    c < 0x80 ∧ isWhitespace (Char.ofNat c.toNat) = true := by
  simp only [isSpaceByte, Bool.or_eq_true, isBlank_iff, isLf_iff] at h
  rcases h with (rfl | rfl) | rfl <;> decide

theorem pieces_nil : pieces [] = [] := rfl

theorem pieces_append {c : UInt8} (hc : isSpaceByte c = true) (xs ys : Bytes) :
    pieces (xs ++ c :: ys) = pieces xs ++ pieces ys := by
  obtain ⟨hascii, hspace⟩ := isSpaceByte_ascii hc
  unfold pieces
  rw [fromUtf8Lossy_append hascii, splitWhitespace_append hspace]

/-- Blanks separate what stands around them. -/
theorem pieces_blanks {bs : Bytes} (h : Blanks bs) (xs ys : Bytes) :
    pieces (xs ++ (bs ++ ys)) = pieces xs ++ pieces ys := by
  obtain ⟨c, rest, rfl⟩ := List.exists_cons_of_ne_nil h.1
  have hspace : ∀ b ∈ c :: rest, isSpaceByte b = true := by
    intro b hb
    simp [isSpaceByte, h.2 b hb]
  clear h
  induction rest generalizing c xs with
  | nil => exact pieces_append (hspace c (by simp)) xs ys
  | cons d rest ih =>
      have hsplit : xs ++ (c :: d :: rest ++ ys) = (xs ++ [c]) ++ (d :: rest ++ ys) := by simp
      rw [hsplit, ih (xs ++ [c]) d (fun b hb => hspace b (List.mem_cons_of_mem c hb)),
        pieces_append (hspace c (by simp)), pieces_nil, List.append_nil]

/--
What follows the words of the request line up to the first carriage return: nothing,
or a line feed and the lines after it.
-/
def afterLine (s : Bytes) (n : Nat) : Bytes :=
  ((s.take n).dropWhile fun c => !isEol c).takeWhile (· != 13)

/-- The word `parse_method` looks at. -/
def methodWord (s : Bytes) (n : Nat) : Bytes := (s.take n).takeWhile fun b => b != 32 && b != 9

/-- A complete request, taken apart. -/
structure Taken (s : Bytes) (n : Nat) : Prop where
  words : requestWords (s.take n)
    = pieces (firstWord s) ++ pieces (secondWord s) ++ pieces (thirdWord s) ++
      pieces (afterLine s n)
  method : methodWord s n = firstWord s
  second : secondWord s ≠ []
  two : thirdWord s = [] → pieces (afterLine s n) = []

/-- No byte of a line is the end of one. -/
structure NoEol (p : Bytes) : Prop where
  none : ∀ c ∈ p, isEol c = false

theorem Word.noEol {w : Bytes} (h : Word w) : NoEol w := ⟨fun c hc => (h c hc).2⟩

theorem Blanks.noEol {bs : Bytes} (h : Blanks bs) : NoEol bs := by
  constructor
  intro c hc
  have hb := isBlank_iff.mp (h.2 c hc)
  rcases hb with rfl | rfl <;> rfl

theorem NoEol.append {p q : Bytes} (hp : NoEol p) (hq : NoEol q) : NoEol (p ++ q) := by
  constructor
  intro c hc
  rcases List.mem_append.mp hc with hc | hc
  · exact hp.none c hc
  · exact hq.none c hc

/-- The line and what follows it, as `process_request` cuts them. -/
theorem NoEol.cut {p t : Bytes} {e : UInt8} (h : NoEol p) (he : isEol e = true) :
    (p ++ e :: t).takeWhile (· != 13) = p ++ (e :: t).takeWhile (· != 13) ∧
      (p ++ e :: t).dropWhile (fun c => !isEol c) = e :: t := by
  have hcr : ∀ c ∈ p, (c != 13) = true := by
    intro c hc
    have := isEol_eq_false (h.none c hc)
    rw [Bool.eq_false_iff, ne_eq, isCr_iff] at this
    simpa using this.1
  refine ⟨List.takeWhile_append_of_pos hcr, ?_⟩
  rw [List.dropWhile_append_of_pos (by simpa using h.none)]
  simp [he]

/-- The method word ends at the first blank. -/
theorem takeWhile_word {w bs rest : Bytes} (hw : Word w) (hbs : Blanks bs) :
    (w ++ (bs ++ rest)).takeWhile (fun b => b != 32 && b != 9) = w := by
  have hnot : ∀ {b : UInt8}, isBlank b = false → (b != 32 && b != 9) = true := by
    intro b hb
    rw [Bool.eq_false_iff, ne_eq, isBlank_iff] at hb
    simpa using hb
  rw [List.takeWhile_append_of_pos fun b hb => hnot (hw b hb).1]
  obtain ⟨hne, hall⟩ := hbs
  cases bs with
  | nil => exact absurd rfl hne
  | cons c bs =>
      have hc := isBlank_iff.mp (hall c (by simp))
      have hstop : (c != 32 && c != 9) = false := by rcases hc with rfl | rfl <;> rfl
      simp [hstop]

/-- What follows a line adds no word to it, or only words of later lines. -/
theorem pieces_afterEol {p t : Bytes} {e : UInt8} (he : isEol e = true) :
    pieces (p ++ (e :: t).takeWhile (· != 13))
      = pieces p ++ pieces ((e :: t).takeWhile (· != 13)) := by
  rcases isEol_iff.mp he with rfl | rfl
  · simp [pieces_nil]
  · have hlf : ((10 : UInt8) :: t).takeWhile (· != 13) = 10 :: t.takeWhile (· != 13) := rfl
    rw [hlf, pieces_append (by decide), ← List.nil_append (10 :: t.takeWhile _),
      pieces_append (by decide), pieces_nil, List.nil_append]

/-- The words of a line and of what follows it. -/
theorem words_of_line {s p t : Bytes} {n : Nat} {e : UInt8} (hp : NoEol p) (he : isEol e = true)
    (htake : s.take n = p ++ e :: t) :
    requestWords (s.take n) = pieces p ++ pieces (afterLine s n) ∧
      afterLine s n = (e :: t).takeWhile (· != 13) := by
  obtain ⟨hcut, hdrop⟩ := hp.cut (t := t) he
  have hafter : afterLine s n = (e :: t).takeWhile (· != 13) := by
    unfold afterLine
    rw [htake, hdrop]
  refine ⟨?_, hafter⟩
  show pieces ((s.take n).takeWhile (· != 13)) = _
  rw [hafter, htake, hcut, pieces_afterEol he]

theorem TwoWords.taken {s p rest : Bytes} {e : UInt8} (hp : TwoWords p) (he : isEol e = true)
    (hs : s = p ++ e :: rest) : Taken s (p.length + 1) := by
  have htake : s.take (p.length + 1) = p ++ e :: [] := by
    rw [hs, ← List.singleton_append (x := e), ← List.append_assoc, List.take_left' (by simp)]
  obtain ⟨q, w₂, rfl, ⟨w₁, bs₁, rfl, hw₁, hbs₁⟩, hw₂, hne₂⟩ := hp
  have hline : NoEol (w₁ ++ bs₁ ++ w₂) := (hw₁.noEol.append hbs₁.noEol).append hw₂.noEol
  obtain ⟨hreq, hafter⟩ := words_of_line hline he htake
  have hstop : parseByte .secondWord e = .done := by
    rcases isEol_iff.mp he with rfl | rfl <;> rfl
  have hwords : ∀ word, wordBytes word s .firstWord
      = (if .firstWord = word then w₁ else []) ++ ((if .firstWs = word then bs₁ else []) ++
        ((if .secondWord = word then w₂ else []) ++ [])) := by
    intro word
    rw [hs, List.append_assoc, List.append_assoc, wordBytes_first _ _ hw₁,
      wordBytes_firstWs _ _ hbs₁, wordBytes_second _ _ hw₂ hne₂, wordBytes, hstop]
    rfl
  have hfirst : firstWord s = w₁ := (hwords .firstWord).trans (by simp)
  have hsecond : secondWord s = w₂ := (hwords .secondWord).trans (by simp)
  have hthird : thirdWord s = [] := (hwords .thirdWord).trans (by simp)
  constructor
  · rw [hreq, hfirst, hsecond, hthird, pieces_nil, List.append_nil, List.append_assoc,
      pieces_blanks hbs₁]
  · unfold methodWord
    rw [htake, List.append_assoc, List.append_assoc, takeWhile_word hw₁ hbs₁, hfirst]
  · rw [hsecond]
    exact hne₂
  · intro _
    rw [hafter]
    rcases isEol_iff.mp he with rfl | rfl <;> decide

/-- A full line, taken apart. -/
theorem FullLine.parts {p : Bytes} (h : FullLine p) : ∃ q w bs, p = q ++ (w ++ bs) ∧
    TwoWordsBlanks q ∧ Word w ∧ w ≠ [] ∧ (bs = [] ∨ Blanks bs) := by
  rcases h with ⟨q, w, rfl, hq, hw, hne⟩ | ⟨p, bs, rfl, ⟨q, w, rfl, hq, hw, hne⟩, hbs⟩
  · exact ⟨q, w, [], by simp, hq, hw, hne, .inl rfl⟩
  · exact ⟨q, w, bs, by simp, hq, hw, hne, .inr hbs⟩

/-- After the third word the machine reads no further one. -/
theorem wordBytes_afterThird {word : ParseState} (hline : word.inLine = true)
    (hword : word ≠ .thirdWs) {bs : Bytes} (hbs : bs = [] ∨ Blanks bs) {e : UInt8}
    (he : isEol e = true) (rest : Bytes) : wordBytes word (bs ++ e :: rest) .thirdWord = [] := by
  have hnext : lineState [e] ≠ word := by
    intro h
    have := lineState_inLine [e]
    rw [h, hline] at this
    cases this
  rcases hbs with rfl | hbs
  · have hstep : parseByte .thirdWord e = .next (lineState [e]) := by
      rcases isEol_iff.mp he with rfl | rfl <;> rfl
    rw [List.nil_append, wordBytes_next _ hstep, if_neg hnext, wordBytes_lineState hline]
    rfl
  · have hstep : parseByte .thirdWs e = .next (lineState [e]) := by
      rcases isEol_iff.mp he with rfl | rfl <;> rfl
    rw [wordBytes_thirdWs _ _ hbs, if_neg hword.symm, wordBytes_next _ hstep, if_neg hnext,
      wordBytes_lineState hline]
    rfl

theorem FullLine.taken {s p t rest : Bytes} (hp : FullLine p) (ht : HeadEnd t)
    (hs : s = p ++ t ++ rest) : Taken s (p.length + t.length) := by
  have htake : s.take (p.length + t.length) = p ++ t := by
    rw [hs, List.take_left' (by simp)]
  obtain ⟨e, u, rfl, he⟩ := ht.eol
  obtain ⟨q, w₃, bs₃, rfl, hq, hw₃, hne₃, hbs₃⟩ := hp.parts
  obtain ⟨q, bs₂, rfl, ⟨q, w₂, rfl, ⟨w₁, bs₁, rfl, hw₁, hbs₁⟩, hw₂, hne₂⟩, hbs₂⟩ := hq
  have hend : NoEol bs₃ := by
    rcases hbs₃ with rfl | hbs₃
    · exact ⟨by simp⟩
    · exact hbs₃.noEol
  have hline : NoEol (w₁ ++ bs₁ ++ w₂ ++ bs₂ ++ (w₃ ++ bs₃)) :=
    (((hw₁.noEol.append hbs₁.noEol).append hw₂.noEol).append hbs₂.noEol).append
      (hw₃.noEol.append hend)
  obtain ⟨hreq, hafter⟩ := words_of_line hline he htake
  have hwords : ∀ word : ParseState, word.inLine = true → word ≠ .thirdWs →
      wordBytes word s .firstWord
      = (if .firstWord = word then w₁ else []) ++ ((if .firstWs = word then bs₁ else []) ++
        ((if .secondWord = word then w₂ else []) ++ ((if .secondWs = word then bs₂ else []) ++
          ((if .thirdWord = word then w₃ else []) ++ [])))) := by
    intro word hin hws
    rw [hs]
    simp only [List.append_assoc, List.cons_append]
    rw [wordBytes_first _ _ hw₁, wordBytes_firstWs _ _ hbs₁, wordBytes_second _ _ hw₂ hne₂,
      wordBytes_secondWs _ _ hbs₂, wordBytes_third _ _ hw₃ hne₃,
      wordBytes_afterThird hin hws hbs₃ he]
  have hfirst : firstWord s = w₁ := (hwords .firstWord rfl (by simp)).trans (by simp)
  have hsecond : secondWord s = w₂ := (hwords .secondWord rfl (by simp)).trans (by simp)
  have hthird : thirdWord s = w₃ := (hwords .thirdWord rfl (by simp)).trans (by simp)
  have hlast : pieces (w₃ ++ bs₃) = pieces w₃ := by
    rcases hbs₃ with rfl | hbs₃
    · rw [List.append_nil]
    · have := pieces_blanks hbs₃ w₃ []
      rwa [List.append_nil, pieces_nil, List.append_nil] at this
  constructor
  · rw [hreq, hfirst, hsecond, hthird]
    simp only [List.append_assoc]
    rw [pieces_blanks hbs₁, pieces_blanks hbs₂, hlast]
    simp only [List.append_assoc]
  · unfold methodWord
    rw [htake]
    simp only [List.append_assoc]
    rw [takeWhile_word hw₁ hbs₁, hfirst]
  · rw [hsecond]
    exact hne₂
  · intro h
    rw [hthird] at h
    exact absurd h hne₃

theorem Completes.taken {s : Bytes} {n : Nat} (h : Completes s n) : Taken s n := by
  cases h with
  | twoWords hp he hs => exact hp.taken he hs
  | threeWords hp ht hs => exact hp.taken ht hs

/-! ### Where the readings agree

Three cases: the method is one word and nothing moves; it is empty or falls into
pieces, and what moves into the places of URL and version happens to be the same; or
the URL or the version falls into pieces itself, and then the readings differ.
-/

/-- No white space is left in a word, of whatever kind. -/
def Unbroken (w : Str) : Prop := ∀ c ∈ w, isWhitespace c = false

instance (w : Str) : Decidable (Unbroken w) := List.decidableBAll _ w

/-- The version a request is taken to have. -/
def HttpConn.version (http : HttpConn) : Option Str :=
  if http.mimeFlag then some http.httpVersion else none

/-- The version word of the machine, decoded. -/
def versionWord (s : Bytes) : Option Str :=
  if thirdWord s = [] then none else some (fromUtf8Lossy (thirdWord s))

/-- Method, URL and version are the three words of the machine. -/
structure LineAgrees (pf : Platform) (s : Bytes) (n : Nat) (state : ParseState) : Prop where
  method : methodWord s n = firstWord s
  url : (readRequestLine pf (.received s n state)).encodedUrl = fromUtf8Lossy (secondWord s)
  version : (readRequestLine pf (.received s n state)).version = versionWord s

/--
URL and version are read in the right place: the method word is one piece, or it is
not and the words that move into their places happen to be the same.
-/
def InPlace (first : List Str) (url : Str) (version : Option Str) (after : List Str) : Prop :=
  match first, version with
  | [_], _ => True
  | [], none => url = ['/']
  | [], some v => v = url ∧ after.head? = some v
  | [_, y], some v => y = url ∧ v = url
  | _ :: y :: z :: _, some v => y = url ∧ z = v
  | _ :: _ :: _, none => False

/-- What the words of the machine have to be like for the split to find them. -/
structure Aligned (s : Bytes) (n : Nat) : Prop where
  url : Unbroken (fromUtf8Lossy (secondWord s))
  version : Unbroken (fromUtf8Lossy (thirdWord s))
  place : InPlace (pieces (firstWord s)) (fromUtf8Lossy (secondWord s)) (versionWord s)
    (pieces (afterLine s n))

/-- Bytes do not decode to nothing. -/
theorem fromUtf8Lossy_ne_nil {bs : Bytes} (h : bs ≠ []) : fromUtf8Lossy bs ≠ [] := by
  cases bs with
  | nil => exact absurd rfl h
  | cons b bs => exact List.cons_ne_nil _ _

theorem pieces_of_unbroken {w : Bytes} (hne : w ≠ []) (h : Unbroken (fromUtf8Lossy w)) :
    pieces w = [fromUtf8Lossy w] := by
  unfold pieces
  rw [splitWhitespace_of_none h, if_neg (fromUtf8Lossy_ne_nil hne)]

theorem unbroken_of_mem {buf : Bytes} {w : Str} (h : w ∈ requestWords buf) : Unbroken w :=
  (mem_splitWhitespace h).2

theorem version_eq (pf : Platform) (s : Bytes) (n : Nat) (state : ParseState) :
    (readRequestLine pf (.received s n state)).version = (requestWords (s.take n))[2]? := by
  show (if (requestWords (s.take n))[2]?.isSome then
    some ((requestWords (s.take n))[2]?.getD "HTTP/0.9".toList) else none) = _
  cases (requestWords (s.take n))[2]? <;> rfl

theorem encodedUrl_eq (pf : Platform) (s : Bytes) (n : Nat) (state : ParseState) :
    (readRequestLine pf (.received s n state)).encodedUrl
      = ((requestWords (s.take n))[1]?).getD ['/'] := rfl

/-- A URL that is a run of the split holds no white space. -/
theorem LineAgrees.unbroken_url {pf : Platform} {s : Bytes} {n : Nat} {state : ParseState}
    (h : LineAgrees pf s n state) : Unbroken (fromUtf8Lossy (secondWord s)) := by
  rw [← h.url, encodedUrl_eq]
  cases hw : (requestWords (s.take n))[1]? with
  | none =>
      intro c hc
      rw [Option.getD_none, List.mem_singleton] at hc
      subst hc
      decide
  | some w => exact unbroken_of_mem (List.mem_of_getElem? hw)

theorem LineAgrees.unbroken_version {pf : Platform} {s : Bytes} {n : Nat} {state : ParseState}
    (h : LineAgrees pf s n state) : Unbroken (fromUtf8Lossy (thirdWord s)) := by
  have hv := h.version
  rw [version_eq] at hv
  unfold versionWord at hv
  split at hv
  · rename_i hnil
    rw [hnil]
    intro c hc
    cases hc
  · exact unbroken_of_mem (List.mem_of_getElem? hv)

/-- Once URL and version are single pieces, only the method word can move them. -/
theorem inPlace_iff (first after : List Str) (url : Str) (version : Option Str)
    (hafter : version = none → after = []) :
    InPlace first url version after ↔
      ((first ++ url :: (version.toList ++ after))[1]?).getD ['/'] = url ∧
        (first ++ url :: (version.toList ++ after))[2]? = version := by
  cases version with
  | none =>
      rw [hafter rfl]
      match first with
      | [] => simp [InPlace, eq_comm]
      | [x] => simp [InPlace]
      | [x, y] => simp [InPlace]
      | x :: y :: z :: rest => simp [InPlace]
  | some v =>
      match first with
      | [] => simp [InPlace, List.head?_eq_getElem?]
      | [x] => simp [InPlace]
      | [x, y] =>
          simp only [InPlace, List.cons_append, List.nil_append, List.getElem?_cons_succ,
            List.getElem?_cons_zero, Option.getD_some, Option.some.injEq]
          exact and_congr_right fun _ => eq_comm
      | x :: y :: z :: rest => simp [InPlace]

/-- The words of a line whose URL and version are unbroken. -/
theorem Taken.words_of_unbroken {s : Bytes} {n : Nat} (h : Taken s n)
    (hurl : Unbroken (fromUtf8Lossy (secondWord s)))
    (hversion : Unbroken (fromUtf8Lossy (thirdWord s))) :
    requestWords (s.take n) = pieces (firstWord s) ++ fromUtf8Lossy (secondWord s) ::
      ((versionWord s).toList ++ pieces (afterLine s n)) := by
  have hthird : pieces (thirdWord s) = (versionWord s).toList := by
    unfold versionWord
    split
    · rename_i hnil
      rw [hnil, pieces_nil, Option.toList_none]
    · rename_i hne
      rw [pieces_of_unbroken hne hversion, Option.toList_some]
  rw [h.words, pieces_of_unbroken h.second hurl, hthird]
  simp only [List.append_assoc, List.cons_append, List.nil_append]

theorem Taken.version_none {s : Bytes} {n : Nat} (h : Taken s n) (hnone : versionWord s = none) :
    pieces (afterLine s n) = [] := by
  refine h.two ?_
  unfold versionWord at hnone
  split at hnone
  · assumption
  · cases hnone

/--
**The readings of the request line agree exactly on aligned lines.**  Of a request
the machine finds complete, the method is its first word in any case; URL and
version are its second and third exactly when these hold no white space of another
kind, and the first word is one piece or the words that shift happen to be equal.

The condition is about the words of the machine, which are bytes of the request, and
about nothing that the server computes.
-/
theorem request_line_agrees_iff (pf : Platform) (s : Bytes) (n : Nat) (state : ParseState)
    (h : gotRequest s 0 .firstWord = (.gotRequest, n, state)) :
    LineAgrees pf s n state ↔ Aligned s n := by
  have htaken : Taken s n := (completes_of_gotRequest h).taken
  have hplace := inPlace_iff (pieces (firstWord s)) (pieces (afterLine s n))
    (fromUtf8Lossy (secondWord s)) (versionWord s) htaken.version_none
  constructor
  · intro hagree
    have hwords := htaken.words_of_unbroken hagree.unbroken_url hagree.unbroken_version
    refine ⟨hagree.unbroken_url, hagree.unbroken_version, hplace.mpr ⟨?_, ?_⟩⟩
    · rw [← hwords, ← encodedUrl_eq pf s n state]
      exact hagree.url
    · rw [← hwords, ← version_eq pf s n state]
      exact hagree.version
  · intro haligned
    have hwords := htaken.words_of_unbroken haligned.url haligned.version
    obtain ⟨hurl, hversion⟩ := hplace.mp haligned.place
    refine ⟨htaken.method, ?_, ?_⟩
    · rw [encodedUrl_eq, hwords]
      exact hurl
    · rw [version_eq, hwords]
      exact hversion

/-- A request line as most clients write it. -/
def plainRequest : Bytes := asBytes "GET /a HTTP/1.0\r\n\r\n".toList

theorem request_line_agrees_plain :
    gotRequest plainRequest 0 .firstWord = (.gotRequest, 19, .gotRequest) ∧
      LineAgrees .epoch plainRequest 19 .gotRequest :=
  ⟨by decide +kernel, (request_line_agrees_iff .epoch plainRequest 19 .gotRequest
    (by decide +kernel)).mpr
      { url := by decide +kernel
        version := by decide +kernel
        place := by
          have hfirst : pieces (firstWord plainRequest) = ["GET".toList] := by decide +kernel
          rw [hfirst]
          trivial }⟩

/-- A vertical tab in the URL, which only the split takes for white space. -/
def tabbedRequest : Bytes := asBytes "GET /a\x0bb HTTP/1.0\r\n\r\n".toList

/--
The machine sees the version `HTTP/1.0`, and the server takes the rest of the URL
for one.
-/
theorem vertical_tab_shifts_version :
    gotRequest tabbedRequest 0 .firstWord = (.gotRequest, 21, .gotRequest) ∧
      versionWord tabbedRequest = some "HTTP/1.0".toList ∧
      (readRequestLine .epoch (.received tabbedRequest 21 .gotRequest)).encodedUrl
        = "/a".toList ∧
      (readRequestLine .epoch (.received tabbedRequest 21 .gotRequest)).version
        = some "b".toList ∧
      ¬ LineAgrees .epoch tabbedRequest 21 .gotRequest := by
  refine ⟨by decide +kernel, by decide +kernel, by decide +kernel, by decide +kernel, ?_⟩
  intro h
  have hurl := h.url
  revert hurl
  decide +kernel

end Thttpd
