/-
Links of a directory listing.

A name is written into a link escape by escape and read back from a request the same way,
so the decoder undoes the encoder.  The path in front of the name is written as it is,
and behind a slash of its own.

The decoder of the source is a loop with an index, and the model of it a recursion.
The loop is modelled here once more, with a check at every index and every sum, so
that the absence of panics is a statement about it; it is shown to do what the
recursion does.
-/
import Thttpd.Http.Dirlist
import Thttpd.Core.Request
import Thttpd.Lib.Utf8

namespace Thttpd

open Text

/-! ### The decoder as the source writes it

Every access is by index and every product of digits in `u8`.  The rounds are
counted, so that running out of them would show as well.
-/

/-- An operation on `u8` that must fit. -/
def checkedU8 (n : Nat) : Option UInt8 := if n < 256 then some (UInt8.ofNat n) else none

/--
The loop of `percent_decode`, with every index and every sum checked; `none` is a
panic, or running out of rounds.
-/
def percentDecodeLoop (bytes : Bytes) : Nat → Nat → Bytes → Option Bytes
  | 0, _, _ => none
  | rounds + 1, i, result =>
      if i < bytes.length then do
        let b ← bytes[i]?
        if b = 37 ∧ i + 2 < bytes.length then
          let hi ← bytes[i + 1]?
          let lo ← bytes[i + 2]?
          match fromHex hi, fromHex lo with
          | some h, some l =>
              let high ← checkedU8 (h.toNat * 16)
              let v ← checkedU8 (high.toNat + l.toNat)
              percentDecodeLoop bytes rounds (i + 3) (result ++ [v])
          | _, _ => percentDecodeLoop bytes rounds (i + 1) (result ++ [b])
        else if b = 43 then percentDecodeLoop bytes rounds (i + 1) (result ++ [32])
        else percentDecodeLoop bytes rounds (i + 1) (result ++ [b])
      else some result

/-- What holds of every number below 256 holds of every byte. -/
theorem forall_byte {P : UInt8 → Prop} (h : ∀ n : Fin 256, P (UInt8.ofFin n)) (b : UInt8) : P b :=
  h b.toFin

theorem fromHex_lt {b v : UInt8} (h : fromHex b = some v) : v.toNat < 16 := by
  unfold fromHex at h
  simp only [Bool.and_eq_true, decide_eq_true_eq, UInt8.le_iff_toNat_le, UInt8.reduceToNat] at h
  split at h
  · cases h
    rw [UInt8.toNat_sub]
    simp only [UInt8.reduceToNat]
    omega
  split at h
  · cases h
    rw [UInt8.toNat_add, UInt8.toNat_sub]
    simp only [UInt8.reduceToNat]
    omega
  split at h
  · cases h
    rw [UInt8.toNat_add, UInt8.toNat_sub]
    simp only [UInt8.reduceToNat]
    omega
  · cases h

/-- Two digits make a byte. -/
theorem checkedU8_hex {h l : UInt8} (hh : h.toNat < 16) (hl : l.toNat < 16) :
    (do let high ← checkedU8 (h.toNat * 16)
        checkedU8 (high.toNat + l.toNat)) = some (h * 16 + l) := by
  have hhigh : checkedU8 (h.toNat * 16) = some (h * 16) := by
    rw [checkedU8, if_pos (by omega)]
    congr 1
  have hvalue : (h * 16).toNat = h.toNat * 16 := by
    rw [UInt8.toNat_mul]
    simp
    omega
  rw [hhigh]
  show checkedU8 ((h * 16).toNat + l.toNat) = _
  rw [checkedU8, if_pos (by omega)]
  simp [hvalue]

section Rounds

variable {b v : UInt8} {bs : Bytes}

theorem percentDecodeFrom_escape (h : escapedByte bs = some v) :
    percentDecodeFrom 0 (37 :: bs) = v :: percentDecodeFrom 2 bs := by
  rw [percentDecodeFrom, h]
  rfl

theorem percentDecodeFrom_stray (h : escapedByte bs = none) :
    percentDecodeFrom 0 (37 :: bs) = 37 :: percentDecodeFrom 0 bs := by
  rw [percentDecodeFrom, h]
  rfl

theorem percentDecodeFrom_plus : percentDecodeFrom 0 (43 :: bs) = 32 :: percentDecodeFrom 0 bs := by
  rw [percentDecodeFrom]
  rfl

theorem percentDecodeFrom_plain (hb : b ≠ 37) (hb' : b ≠ 43) :
    percentDecodeFrom 0 (b :: bs) = b :: percentDecodeFrom 0 bs := by
  rw [percentDecodeFrom, if_neg (by simpa using hb), if_neg (by simpa using hb')]

/-- Two more bytes are needed for an escape. -/
theorem escapedByte_of_short (h : bs.length < 2) : escapedByte bs = none := by
  cases bs with
  | nil => rfl
  | cons a bs =>
      cases bs with
      | nil => rfl
      | cons c bs =>
          simp only [List.length_cons] at h
          omega

end Rounds

/-- The loop reads what is left from `i` on, and comes to an end without a panic. -/
theorem percentDecodeLoop_eq (bytes : Bytes) : ∀ (rounds i : Nat) (result : Bytes),
    bytes.length - i < rounds →
      percentDecodeLoop bytes rounds i result = some (result ++ percentDecodeFrom 0 (bytes.drop i)) := by
  intro rounds
  induction rounds with
  | zero =>
      intro i result h
      exact absurd h (Nat.not_lt_zero _)
  | succ rounds ih =>
      intro i result h
      rw [percentDecodeLoop]
      by_cases hi : i < bytes.length
      · rw [if_pos hi, List.drop_eq_getElem_cons hi, List.getElem?_eq_getElem hi]
        simp only [Option.bind_eq_bind, Option.bind_some]
        generalize bytes[i] = b
        have hplain : percentDecodeLoop bytes rounds (i + 1) (result ++ [b]) =
            some (result ++ b :: percentDecodeFrom 0 (bytes.drop (i + 1))) := by
          rw [ih _ _ (by omega), List.append_assoc]
          rfl
        by_cases hescape : b = 37 ∧ i + 2 < bytes.length
        · obtain ⟨rfl, hlen⟩ := hescape
          have hnext : bytes.drop (i + 1) = bytes[i + 1] :: bytes[i + 2] :: bytes.drop (i + 3) := by
            rw [List.drop_eq_getElem_cons (by omega), List.drop_eq_getElem_cons hlen]
          rw [if_pos ⟨rfl, hlen⟩, List.getElem?_eq_getElem (by omega), List.getElem?_eq_getElem hlen]
          rw [hnext] at hplain ⊢
          generalize bytes[i + 1] = hi at *
          generalize bytes[i + 2] = lo at *
          simp only [Option.bind_some]
          cases hh : fromHex hi with
          | none =>
              rw [percentDecodeFrom_stray (by rw [escapedByte, hh])]
              exact hplain
          | some h =>
              cases hl : fromHex lo with
              | none =>
                  rw [percentDecodeFrom_stray (by rw [escapedByte, hh, hl])]
                  exact hplain
              | some l =>
                  have hvalue := checkedU8_hex (fromHex_lt hh) (fromHex_lt hl)
                  rw [Option.bind_eq_bind] at hvalue
                  simp only
                  rw [← Option.bind_assoc, hvalue, Option.bind_some, ih _ _ (by omega),
                    percentDecodeFrom_escape (by rw [escapedByte, hh, hl]), List.append_assoc]
                  rfl
        · rw [if_neg hescape]
          by_cases hb : b = 37
          · have hshort : (bytes.drop (i + 1)).length < 2 := by
              rw [List.length_drop]
              have hnot : ¬ i + 2 < bytes.length := fun hlen => hescape ⟨hb, hlen⟩
              omega
            rw [if_neg (by rw [hb]; decide), hplain, hb,
              percentDecodeFrom_stray (escapedByte_of_short hshort)]
          · by_cases hb' : b = 43
            · rw [if_pos hb', ih _ _ (by omega), hb', percentDecodeFrom_plus, List.append_assoc]
              rfl
            · rw [if_neg hb', hplain, percentDecodeFrom_plain hb hb']
      · rw [if_neg hi, List.drop_eq_nil_of_le (Nat.not_lt.mp hi)]
        simp [percentDecodeFrom]

/-- Decoding makes a text no longer. -/
theorem percentDecodeFrom_length_le (k : Nat) (bs : Bytes) :
    (percentDecodeFrom k bs).length ≤ bs.length := by
  induction bs generalizing k with
  | nil => simp [percentDecodeFrom]
  | cons b bs ih =>
      cases k with
      | succ k => exact Nat.le_succ_of_le (ih k)
      | zero =>
          have hkeep (a : UInt8) (k : Nat) : (a :: percentDecodeFrom k bs).length ≤ (b :: bs).length :=
            Nat.succ_le_succ (ih k)
          rw [percentDecodeFrom]
          split
          · split
            · exact hkeep _ 2
            · exact hkeep _ 0
          · split
            · exact hkeep _ 0
            · exact hkeep _ 0

/-! ### There and back

An encoded byte is either itself or a percent sign and two digits.  In both cases the
decoder makes the byte of it and goes on behind it, whatever comes there.
-/

/-- How a byte stands in a link: as a character the decoder leaves alone, or as three. -/
theorem byte_forms (b : UInt8) :
    (isUnreserved b = true → asBytes [byteChar b] = [b] ∧ b ≠ 37 ∧ b ≠ 43) ∧
      (asBytes ['%', hexDigit (b / 16), hexDigit (b % 16)]).length = 3 ∧
      (asBytes ['%', hexDigit (b / 16), hexDigit (b % 16)]).head? = some 37 ∧
      escapedByte (asBytes ['%', hexDigit (b / 16), hexDigit (b % 16)]).tail = some b := by
  refine forall_byte (P := fun b =>
    (isUnreserved b = true → asBytes [byteChar b] = [b] ∧ b ≠ 37 ∧ b ≠ 43) ∧
      (asBytes ['%', hexDigit (b / 16), hexDigit (b % 16)]).length = 3 ∧
      (asBytes ['%', hexDigit (b / 16), hexDigit (b % 16)]).head? = some 37 ∧
      escapedByte (asBytes ['%', hexDigit (b / 16), hexDigit (b % 16)]).tail = some b) ?_ b
  decide +kernel

/-- A byte that is not escaped is an ASCII character the decoder leaves alone. -/
theorem unreserved_spec {b : UInt8} (h : isUnreserved b = true) :
    asBytes [byteChar b] = [b] ∧ b ≠ 37 ∧ b ≠ 43 := (byte_forms b).1 h

/-- An escape is three ASCII characters that stand for the byte. -/
theorem escape_spec (b : UInt8) : ∃ hi lo, asBytes ['%', hexDigit (b / 16), hexDigit (b % 16)] =
    [37, hi, lo] ∧ escapedByte [hi, lo] = some b := by
  obtain ⟨hlen, hhead, hvalue⟩ := (byte_forms b).2
  obtain ⟨a, hi, lo, habc⟩ := List.length_eq_three.mp hlen
  rw [habc] at hhead hvalue ⊢
  rw [Option.some.inj hhead]
  exact ⟨hi, lo, rfl, hvalue⟩

theorem percentDecodeFrom_encodeByte (b : UInt8) (rest : Bytes) :
    percentDecodeFrom 0 (asBytes (encodeByte b) ++ rest) = b :: percentDecodeFrom 0 rest := by
  unfold encodeByte
  by_cases hb : isUnreserved b = true
  · obtain ⟨hbytes, hne, hne'⟩ := unreserved_spec hb
    rw [if_pos hb, hbytes]
    exact percentDecodeFrom_plain hne hne'
  · obtain ⟨hi, lo, hbytes, hvalue⟩ := escape_spec b
    rw [if_neg hb, hbytes]
    exact percentDecodeFrom_escape hvalue

theorem percentDecodeFrom_urlEncode (bs : Bytes) :
    percentDecodeFrom 0 (asBytes (bs.flatMap encodeByte)) = bs := by
  induction bs with
  | nil => rfl
  | cons b bs ih => rw [List.flatMap_cons, asBytes_append, percentDecodeFrom_encodeByte, ih]

theorem percentDecode_urlEncode (s : Str) : percentDecode (urlEncode s) = s := by
  have hlossy := fromUtf8Lossy_asBytes s []
  rw [List.append_nil, fromUtf8Lossy_nil, List.append_nil] at hlossy
  rw [percentDecode, urlEncode, percentDecodeFrom_urlEncode, hlossy]

/--
**Decoding undoes encoding, never panics and never makes a text longer.**

The second part is about the loop as it is written: it comes to its end within as
many rounds as there are bytes, with every index in range.
-/
theorem decode_undoes_encode :
    (∀ s, percentDecode (urlEncode s) = s) ∧
    ∀ input, ∃ result, percentDecodeLoop (asBytes input) ((asBytes input).length + 1) 0 [] = some result ∧
      percentDecode input = fromUtf8Lossy result ∧ result.length ≤ (asBytes input).length := by
  refine ⟨percentDecode_urlEncode, fun input => ⟨percentDecodeFrom 0 (asBytes input), ?_, rfl, ?_⟩⟩
  · rw [percentDecodeLoop_eq _ _ 0 [] (by omega)]
    rfl
  · exact percentDecodeFrom_length_le 0 _

/-! ### Links

A listing writes the path of the directory, which begins with a slash, behind
another slash.  A request for such a link is cut at its query and decoded, and still
begins with two slashes, and that is what `normalize_path` refuses.
-/

/-- The path of an entry of a directory. -/
def entryPath (urlPath name : Str) : Str := urlPrefix urlPath ++ name

/-- The request leads to the entry. -/
def LinkLeads (pf : Platform) (http : HttpConn) (urlPath : Str) (e : DirEntry) : Prop :=
  normalizePath (readRequestLine pf http).decodedUrl = some (entryPath urlPath e.name)

theorem containsStr_slashes (s : Str) : containsStr ['/', '/'] ('/' :: '/' :: s) = true := by
  simp [containsStr, List.isPrefixOf]

/-- A URL that begins with two slashes still does when it has been decoded and cut. -/
theorem percentDecode_slashes (url : Str) :
    ∃ rest, percentDecode ('/' :: '/' :: url) = '/' :: '/' :: rest := by
  have hslash : asBytes ('/' :: '/' :: url) = 47 :: 47 :: asBytes url := rfl
  refine ⟨fromUtf8Lossy (percentDecodeFrom 0 (asBytes url)), ?_⟩
  rw [percentDecode, hslash, percentDecodeFrom_plain (by decide) (by decide),
    percentDecodeFrom_plain (by decide) (by decide), fromUtf8Lossy_cons (by decide),
    fromUtf8Lossy_cons (by decide)]
  rfl

theorem listingHref_slashes {urlPath : Str} (hpath : urlPath.head? = some '/') (e : DirEntry) :
    ∃ rest, listingHref urlPath e = '/' :: '/' :: rest := by
  obtain ⟨path, rfl⟩ := List.head?_eq_some_iff.mp hpath
  unfold listingHref urlPrefix
  split
  · exact ⟨_, rfl⟩
  · exact ⟨_, rfl⟩

/-- What a request for a link is resolved from. -/
theorem decodedUrl_slashes {pf : Platform} {http : HttpConn} {urlPath : Str} {e : DirEntry}
    (hpath : urlPath.head? = some '/')
    (hurl : (readRequestLine pf http).encodedUrl = listingHref urlPath e) :
    ∃ rest, (readRequestLine pf http).decodedUrl = '/' :: '/' :: rest := by
  obtain ⟨url, hhref⟩ := listingHref_slashes hpath e
  obtain ⟨decoded, hdecoded⟩ := percentDecode_slashes url
  have hread : (readRequestLine pf http).decodedUrl =
      (splitOnce '?' (percentDecode (readRequestLine pf http).encodedUrl)).elim
        (percentDecode (readRequestLine pf http).encodedUrl) Prod.fst := by
    unfold readRequestLine
    dsimp only
    cases splitOnce '?' (percentDecode _) with
    | none => rfl
    | some parts => rfl
  rw [hread, hurl, hhref, hdecoded]
  rw [splitOnce, if_neg (by decide), splitOnce, if_neg (by decide)]
  cases splitOnce '?' decoded with
  | none => exact ⟨decoded, rfl⟩
  | some parts => exact ⟨parts.1, rfl⟩

/--
**No link of a listing leads to its entry**: the request is refused as a bad one.
And the link is what a listing that has the entry shows of it.

This is so of every entry, whatever its name, so the links of a listing are of no
use to anybody; the C server writes them with one slash.
-/
theorem no_link_leads (pf : Platform) (http : HttpConn) (urlPath : Str)
    (hpath : urlPath.head? = some '/') (e : DirEntry)
    (hask : (readRequestLine pf http).encodedUrl = listingHref urlPath e) :
    ¬ LinkLeads pf http urlPath e ∧ normalizePath (readRequestLine pf http).decodedUrl = none ∧
      badPathReply (readRequestLine pf http).decodedUrl =
        .badRequest (readRequestLine pf http).decodedUrl ∧
      ∀ nowSecs entries, e ∈ entries →
        "<A HREF=\"".toList ++ listingHref urlPath e ++ "\">".toList <:+:
          listingPage pf nowSecs urlPath entries := by
  obtain ⟨rest, hdecoded⟩ := decodedUrl_slashes hpath hask
  have hnone : normalizePath (readRequestLine pf http).decodedUrl = none := by
    rw [hdecoded, normalizePath, if_pos (containsStr_slashes rest)]
  refine ⟨?_, hnone, ?_, fun nowSecs entries he =>
    (listingHref_shown nowSecs urlPath e).trans (listingLine_shown pf nowSecs urlPath he)⟩
  · unfold LinkLeads
    rw [hnone]
    exact fun h => by cases h
  · rw [badPathReply, hdecoded, if_pos (containsStr_slashes rest)]

/-- A file with a blank in its name. -/
def blankEntry : DirEntry := ⟨"a b".toList, .other, 420, 1, 5, 0, false, 5, none⟩

/-- The request for its link in the listing of `/dir`. -/
def linkRequest : HttpConn :=
  .received (asBytes "GET //dir/a%20b HTTP/1.0\r\n\r\n".toList) 28 .gotRequest

theorem no_link_leads_blank :
    ¬ LinkLeads .epoch linkRequest "/dir".toList blankEntry :=
  (no_link_leads .epoch linkRequest "/dir".toList rfl blankEntry (by decide +kernel)).1

/-- **The slash in front is one too many.** -/
theorem link_refused :
    normalizePath "/dir".toList = some "/dir".toList ∧
      listingHref "/dir".toList blankEntry = "//dir/a%20b".toList ∧
      (readRequestLine .epoch linkRequest).encodedUrl = listingHref "/dir".toList blankEntry ∧
      normalizePath (readRequestLine .epoch linkRequest).decodedUrl = none ∧
      entryPath "/dir".toList blankEntry.name = "/dir/a b".toList := by
  decide +kernel

end Thttpd
