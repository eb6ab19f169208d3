/-
What can be read back off a head that was written.

A head is a block of lines: the status line and the header lines.  If no text in it
holds a line end, the blank line stands at its end only, so the length of the head is
found again by looking for it, and if the protocol is one word, the status is the
second word of the response.

Reading back is by search on both sides.  The server looks for the blank line to find
how long a head was and for a number behind the protocol to find its status, and a
client does the same, so the lemmas are used for both.
-/
import Thttpd.Lib.Block
import Thttpd.Lib.Utf8
import Thttpd.Core.EventLoop
import Thttpd.Proofs.RequestLine

namespace Thttpd

open Text Fs

/-! ### Text of one line

The lemmas follow the texts a head is made of: words, numerals, and what is put
together of them.
-/

/-- Text without line ends. -/
def NoBreak (s : Str) : Prop := '\r' ∉ s ∧ '\n' ∉ s

instance (s : Str) : Decidable (NoBreak s) := inferInstanceAs (Decidable (_ ∧ _))

namespace NoBreak

theorem append {s t : Str} (hs : NoBreak s) (ht : NoBreak t) : NoBreak (s ++ t) :=
  ⟨by simp [hs.1, ht.1], by simp [hs.2, ht.2]⟩

theorem of_subset {s t : Str} (ht : NoBreak t) (h : s ⊆ t) : NoBreak s :=
  ⟨fun hc => ht.1 (h hc), fun hc => ht.2 (h hc)⟩

/-- A word has no line end in it. -/
theorem of_unbroken {w : Str} (h : Unbroken w) : NoBreak w := by
  constructor
  · intro hc
    exact absurd (h _ hc) (by decide)
  · intro hc
    exact absurd (h _ hc) (by decide)

/-- Text that is not empty makes a line. -/
theorem isLine {s : Str} (h : NoBreak s) (hne : s ≠ []) : IsLine (asBytes s) := by
  refine ⟨?_, fun hcr => h.1 (byteChar_mem_of_asBytes (by decide) hcr),
    fun hlf => h.2 (byteChar_mem_of_asBytes (by decide) hlf)⟩
  obtain ⟨c, s, rfl⟩ := List.exists_cons_of_ne_nil hne
  rw [asBytes_cons]
  simp [String.utf8EncodeChar_ne_nil]

end NoBreak

theorem natStr_isDigit {n : Nat} {c : Char} (h : c ∈ natStr n) : c.isDigit = true :=
  Nat.isDigit_of_mem_toDigits (by decide) (by decide) h

/-- A numeral is one word. -/
theorem natStr_unbroken (n : Nat) : Unbroken (natStr n) := by
  intro c hc
  obtain ⟨hlo, hhi⟩ := isDigit_bounds (natStr_isDigit hc)
  simp only [isWhitespace, Bool.or_eq_false_iff, Bool.and_eq_false_iff, decide_eq_false_iff_not,
    beq_eq_false_iff_ne]
  omega

theorem natStr_noBreak (n : Nat) : NoBreak (natStr n) := .of_unbroken (natStr_unbroken n)

theorem natStr_ne_nil (n : Nat) : natStr n ≠ [] := Nat.toDigits_ne_nil

theorem intStr_noBreak (n : Int) : NoBreak (intStr n) := by
  cases n with
  | ofNat n => exact natStr_noBreak n
  | negSucc n => exact .append (s := ['-']) (by decide) (natStr_noBreak (n + 1))

/-- A numeral is read back. -/
theorem parseDigits_natStr (n : Nat) : parseDigits (natStr n) = some n := by
  have hdigits : ¬ (natStr n = [] ∨ (natStr n).any (fun c => !c.isDigit) = true) := by
    rintro (hnil | hany)
    · exact natStr_ne_nil n hnil
    · obtain ⟨c, hc, hnot⟩ := List.any_eq_true.mp hany
      rw [natStr_isDigit hc] at hnot
      cases hnot
  have hfold : ∀ (s : Str) (k : Nat), s.foldl (fun n c => n * 10 + (c.toNat - '0'.toNat)) k
      = Nat.ofDigitChars 10 s k := by
    intro s
    induction s with
    | nil => intro k; rfl
    | cons c s ih =>
        intro k
        rw [List.foldl_cons, ih, Nat.ofDigitChars_cons, Nat.mul_comm]
  unfold parseDigits
  rw [if_neg hdigits, hfold]
  exact congrArg some Nat.ofDigitChars_ten_toDigits

/-! ### Heads

A head without line ends in its texts is a block of lines, and what the block has in
general holds of it.
-/

namespace Head

def statusLine (h : Head) : Str :=
  h.protocol ++ ' ' :: (natStr h.status ++ ' ' :: h.statusText)

def headerLine (p : Str × Str) : Str := p.1 ++ ": ".toList ++ p.2

/-- No text of the head holds a line end. -/
structure Clean (h : Head) : Prop where
  protocol : NoBreak h.protocol
  statusText : NoBreak h.statusText
  headers : ∀ p ∈ h.headers, NoBreak p.1 ∧ NoBreak p.2

/-- The lines of a head. -/
def lines (h : Head) : List Bytes := asBytes h.statusLine :: h.headers.map (asBytes ∘ headerLine)

/--
**A head is a block of its lines.**

The head is written header by header; the block is what the lemmas about searching
speak of.
-/
theorem render_eq_block (h : Head) : h.render = block h.lines := by
  have hheaders : ∀ ps : List (Str × Str), asBytes (ps.flatMap renderHeader)
      = (ps.map (asBytes ∘ headerLine)).flatMap (· ++ [13, 10]) := by
    intro ps
    induction ps with
    | nil => rfl
    | cons p ps ih =>
        rw [List.flatMap_cons, asBytes_append, ih, List.map_cons, List.flatMap_cons]
        simp only [renderHeader, headerLine, Function.comp_apply, asBytes_append]
        rfl
  have hline : h.protocol ++ [' '] ++ natStr h.status ++ [' '] ++ h.statusText = h.statusLine := by
    simp [statusLine]
  have hcrlf : asBytes crlf = [13, 10] := by decide
  unfold render lines block
  rw [hline, asBytes_append, asBytes_append, asBytes_append, hheaders, hcrlf, List.flatMap_cons]

theorem statusLine_ne_nil (h : Head) : h.statusLine ≠ [] := by simp [statusLine]

theorem statusLine_noBreak {h : Head} (hp : NoBreak h.protocol) (ht : NoBreak h.statusText) :
    NoBreak h.statusLine := by
  have hspace : NoBreak [' '] := by decide
  have htail := hspace.append ((natStr_noBreak h.status).append (hspace.append ht))
  exact hp.append htail

theorem headerLine_isLine {p : Str × Str} (h : NoBreak p.1 ∧ NoBreak p.2) :
    IsLine (asBytes (headerLine p)) := by
  refine ((h.1.append (by decide)).append h.2).isLine ?_
  simp

theorem Clean.isLine {h : Head} (hc : h.Clean) : ∀ l ∈ h.lines, IsLine l := by
  intro l hl
  rcases List.mem_cons.mp hl with rfl | hl
  · exact (statusLine_noBreak hc.protocol hc.statusText).isLine h.statusLine_ne_nil
  · obtain ⟨p, hp, rfl⟩ := List.mem_map.mp hl
    exact headerLine_isLine (hc.headers p hp)

theorem lines_ne_nil (h : Head) : h.lines ≠ [] := List.cons_ne_nil _ _

/-- The blank line is the end of a clean head. -/
theorem Clean.blankLine_at_end {h : Head} (hc : h.Clean) {i : Nat}
    (hi : blankLine <+: h.render.drop i) : i + 4 = h.render.length := by
  rw [h.render_eq_block] at hi ⊢
  exact Text.blankLine_at_end h.lines_ne_nil hc.isLine hi

theorem Clean.crLfOnly {h : Head} (hc : h.Clean) : CrLfOnly h.render := by
  rw [h.render_eq_block]
  exact block_crLfOnly hc.isLine

theorem four_le_render (h : Head) : 4 ≤ h.render.length := by
  rw [h.render_eq_block, lines, block_cons]
  simp only [block, List.length_append, List.length_cons, List.length_nil]
  omega

/--
**The length of a clean head is found again**, whatever body follows.

The search is over the whole response, and the body may hold anything, since the
first blank line is the one at the end of the head.
-/
theorem Clean.headerEndOffset {h : Head} (hc : h.Clean) (body : Bytes) :
    headerEndOffset (h.render ++ body) = some h.render.length := by
  have hlen := h.four_le_render
  have hfind := findBytes_block h.lines_ne_nil hc.isLine body
  unfold Thttpd.headerEndOffset
  rw [h.render_eq_block] at hlen ⊢
  unfold blankLine at hfind
  rw [hfind]
  simp only [Option.some.injEq]
  omega

/-- The response after its status line. -/
theorem render_statusLine (h : Head) (body : Bytes) :
    ∃ rest, h.render ++ body = asBytes h.statusLine ++ 13 :: 10 :: rest := by
  rw [h.render_eq_block, lines, block_cons, List.append_assoc]
  exact ⟨_, rfl⟩

end Head

/-! ### The status on the wire

The first line of a response is the protocol, the status and the phrase, with a
space between them.
-/

/--
The status in the first line of a response: what stands between its first two
spaces.
-/
def wireStatus (response : Bytes) : Option Nat :=
  parseDigits ((((response.dropWhile (· != 32)).drop 1).takeWhile (· != 32)).map byteChar)

theorem space_notMem_asBytes {s : Str} (h : ' ' ∉ s) : ∀ b ∈ asBytes s, (b != 32) = true := by
  intro b hb
  rw [bne_iff_ne]
  rintro rfl
  exact h (byteChar_mem_of_asBytes (by decide) hb)

theorem Unbroken.noSpace {w : Str} (h : Unbroken w) : ' ' ∉ w := by
  intro hc
  exact absurd (h _ hc) (by decide)

/-- A number in front of a space is read back. -/
theorem takeWhile_natStr (n : Nat) (rest : Bytes) :
    parseDigits (((asBytes (natStr n) ++ 32 :: rest).takeWhile (· != 32)).map byteChar)
      = some n := by
  have hascii : ∀ c ∈ natStr n, c.toNat < 0x80 := by
    intro c hc
    have := (isDigit_bounds (natStr_isDigit hc)).2
    omega
  rw [List.takeWhile_append_of_pos (space_notMem_asBytes (natStr_unbroken n).noSpace),
    List.takeWhile_cons_of_neg (by decide), List.append_nil, map_byteChar_asBytes hascii,
    parseDigits_natStr]

/--
**The status of a head is the one on the wire.**

A protocol without white space is the first word, so the status is the second.
-/
theorem wireStatus_render {h : Head} (hp : Unbroken h.protocol) (body : Bytes) :
    wireStatus (h.render ++ body) = some h.status := by
  obtain ⟨rest, hrest⟩ := h.render_statusLine body
  have hcut : h.render ++ body = asBytes h.protocol ++ 32 :: (asBytes (natStr h.status)
      ++ 32 :: (asBytes h.statusText ++ 13 :: 10 :: rest)) := by
    rw [hrest]
    simp only [Head.statusLine, asBytes_append, asBytes_cons, List.append_assoc]
    rfl
  unfold wireStatus
  rw [hcut, List.dropWhile_append_of_pos (space_notMem_asBytes hp.noSpace),
    List.dropWhile_cons_of_neg (by decide), List.drop_one, List.tail_cons, takeWhile_natStr]

/-- What `status_code_from_response` wants of the protocol. -/
def isHttp (protocol : Str) : Bool := "HTTP/".toList.isPrefixOf protocol

theorem parseInt_natStr {n hi : Nat} (h : n ≤ hi) : parseInt 0 hi (natStr n) = some (n : Int) := by
  have hparse : (parseDigits (natStr n)).bind (fun n => inRange 0 hi (n : Int)) = some (n : Int) := by
    rw [parseDigits_natStr, Option.bind_some, inRange, if_pos (by omega)]
  have hdigit : ∀ c ∈ natStr n, c.isDigit = true := fun c hc => natStr_isDigit hc
  unfold parseInt
  split
  · rename_i ds heq
    exact absurd (hdigit '-' (by rw [heq]; simp)) (by decide)
  · rename_i ds heq
    exact absurd (hdigit '+' (by rw [heq]; simp)) (by decide)
  · exact hparse

/--
**The status is found again for the log only behind an `HTTP/` protocol.**

The server wants the prefix of the protocol and a client does not, which is where
the two can differ.
-/
theorem statusCodeFromResponse_render {h : Head} (hp : Unbroken h.protocol) (hne : h.protocol ≠ [])
    (ht : NoBreak h.statusText) (hs : h.status ≤ 65535) (body : Bytes) :
    statusCodeFromResponse (h.render ++ body)
      = if isHttp h.protocol then some h.status else none := by
  obtain ⟨rest, hrest⟩ := h.render_statusLine body
  have hline : NoBreak h.statusLine := Head.statusLine_noBreak (.of_unbroken hp) ht
  have hcr : (13 : UInt8) ∉ asBytes h.statusLine :=
    fun hmem => hline.1 (byteChar_mem_of_asBytes (by decide) hmem)
  have hwords : splitWhitespace h.statusLine
      = h.protocol :: natStr h.status :: splitWhitespace h.statusText := by
    unfold Head.statusLine
    rw [splitWhitespace_append (by decide), splitWhitespace_append (by decide),
      splitWhitespace_of_none hp, if_neg hne, splitWhitespace_of_none (natStr_unbroken h.status),
      if_neg (natStr_ne_nil h.status)]
    rfl
  have hparse : parseInt 0 65535 (natStr h.status) = some (h.status : Int) := parseInt_natStr hs
  have hfind : findBytes [13, 10] (asBytes h.statusLine ++ 13 :: 10 :: rest)
      = some (asBytes h.statusLine).length := findBytes_of_notMem hcr [10] rest
  unfold statusCodeFromResponse
  rw [hrest, hfind, Option.bind_some, List.take_left, fromUtf8_asBytes,
    Option.bind_some, hwords]
  simp only [hparse, Option.map_some, Int.toNat_natCast]
  rfl

end Thttpd
