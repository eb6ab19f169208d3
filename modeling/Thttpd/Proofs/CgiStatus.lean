/-
The status of a program's answer.

The status line of a parsed-header CGI is made from the header lines of the program's
output.  They end at the first blank line, but the server looks for a blank line of one
kind in the whole output before it looks for one of the other kind, and so it may read on
into the body.  Of the lines it reads the last `Status:` with a number counts; nothing
looks at an `HTTP/` line.

Both results below speak of the output alone, cut at its first blank line of either kind: the
header part, the blank line, and the stray lines, which are those of the body that the server
takes for headers.
-/
import Thttpd.Core.CgiDispatch
import Thttpd.Lib.Block

namespace Thttpd

open Text

/-! ### Where the header lines end

`cgiHeaderEnd` makes two searches over the whole output, and what comes first in the
output need not be what is found first.  Cutting the output at its first blank line
of either kind makes the difference visible: a blank line of carriage returns that
ends the header part is what is found, and one of line feeds is found only if the
body holds none of the other kind.
-/

/-- The two spellings of a blank line. -/
def crlfBlank : Bytes := [13, 10, 13, 10]

def lfBlank : Bytes := [10, 10]

def startsBlank (bs : Bytes) : Bool := crlfBlank.isPrefixOf bs || lfBlank.isPrefixOf bs

/-- The header part of an output, and the rest from the first blank line on. -/
def splitHeaders : Bytes → Bytes × Bytes
  | [] => ([], [])
  | b :: bs =>
      if startsBlank (b :: bs) then ([], b :: bs)
      else (b :: (splitHeaders bs).1, (splitHeaders bs).2)

theorem splitHeaders_append (bs : Bytes) : (splitHeaders bs).1 ++ (splitHeaders bs).2 = bs := by
  induction bs with
  | nil => rfl
  | cons b bs ih =>
      rw [splitHeaders]
      split
      · rfl
      · exact congrArg (b :: ·) ih

/-- No blank line begins inside the header part. -/
theorem splitHeaders_first {x y bs : Bytes} (h : (splitHeaders bs).1 = x ++ y) (hy : y ≠ []) :
    startsBlank (y ++ (splitHeaders bs).2) = false := by
  induction bs generalizing x with
  | nil => exact absurd (List.append_eq_nil_iff.mp h.symm).2 hy
  | cons b bs ih =>
      rw [splitHeaders] at h ⊢
      split at h
      · exact absurd (List.append_eq_nil_iff.mp h.symm).2 hy
      · rename_i hblank
        rw [if_neg hblank]
        cases x with
        | nil =>
            rw [List.nil_append] at h
            rw [← h, List.cons_append, splitHeaders_append]
            exact Bool.eq_false_iff.mpr hblank
        | cons c x =>
            exact ih (List.cons.inj h).2

/-- The rest is empty or begins with a blank line. -/
theorem splitHeaders_rest (bs : Bytes) :
    (splitHeaders bs).2 = [] ∨ startsBlank (splitHeaders bs).2 = true := by
  induction bs with
  | nil => exact .inl rfl
  | cons b bs ih =>
      rw [splitHeaders]
      split
      · exact .inr ‹_›
      · exact ih

theorem startsBlank_iff {bs : Bytes} : startsBlank bs = true ↔ crlfBlank <+: bs ∨ lfBlank <+: bs := by
  rw [startsBlank, Bool.or_eq_true, List.isPrefixOf_iff_prefix, List.isPrefixOf_iff_prefix]

theorem startsBlank_eq_false {bs : Bytes} (h : startsBlank bs = false) :
    ¬ crlfBlank <+: bs ∧ ¬ lfBlank <+: bs := by
  rw [← not_or, ← startsBlank_iff, h]
  exact Bool.false_ne_true

/-- No blank line of carriage returns has two line feeds together. -/
theorem not_crlfBlank_of_lf {y rest : Bytes} (hy : y ≠ []) (h : ¬ crlfBlank <+: y ++ lfBlank) :
    ¬ crlfBlank <+: y ++ lfBlank ++ rest := by
  intro hp
  rcases List.prefix_or_prefix_of_prefix hp (List.prefix_append (y ++ lfBlank) rest) with hp | ⟨t, ht⟩
  · exact h hp
  · obtain ⟨a, y, rfl⟩ := List.exists_cons_of_ne_nil hy
    cases y with
    | nil => simp [crlfBlank, lfBlank] at ht
    | cons b y =>
        cases y with
        | nil => simp [crlfBlank, lfBlank] at ht
        | cons c y =>
            have hlen := congrArg List.length ht
            simp only [crlfBlank, lfBlank, List.length_append, List.length_cons, List.length_nil] at hlen
            omega

section FirstBlank

variable {head body : Bytes}

/-- What the server finds when the first blank line is of carriage returns. -/
theorem cgiHeaderEnd_crlf (h : splitHeaders (head ++ crlfBlank) = (head, crlfBlank)) :
    cgiHeaderEnd (head ++ crlfBlank ++ body) = some head.length := by
  have hfirst : ∀ x y, head = x ++ y → y ≠ [] → ¬ crlfBlank <+: y ++ (crlfBlank ++ body) := by
    intro x y hxy hy hp
    have hnot := splitHeaders_first (by rw [h]; exact hxy) hy
    rw [h] at hnot
    refine (startsBlank_eq_false hnot).1 ?_
    rw [← List.append_assoc] at hp
    refine List.prefix_of_prefix_length_le hp (List.prefix_append _ body) ?_
    rw [List.length_append]
    exact Nat.le_add_left _ _
  rw [cgiHeaderEnd, List.append_assoc,
    show [13, 10, 13, 10] = crlfBlank from rfl, findBytes_of_first (List.prefix_append _ body) hfirst]

/-- When it is of line feeds, one of carriage returns in the body is found first. -/
theorem cgiHeaderEnd_lf {more : Bytes} (h : splitHeaders (head ++ lfBlank) = (head, lfBlank))
    (hmore : (13 : UInt8) ∉ more) :
    cgiHeaderEnd (head ++ lfBlank ++ (more ++ crlfBlank)) =
      some (head ++ lfBlank ++ more).length := by
  have hcr : ∀ {z : Bytes}, z ≠ [] → (13 : UInt8) ∉ z → ∀ t, ¬ crlfBlank <+: z ++ t := by
    rintro z hz hnot t ⟨u, hu⟩
    obtain ⟨b, z, rfl⟩ := List.exists_cons_of_ne_nil hz
    obtain ⟨rfl, -⟩ := List.cons.inj hu
    exact hnot List.mem_cons_self
  have hfirst : ∀ x y, head ++ lfBlank ++ more = x ++ y → y ≠ [] → ¬ crlfBlank <+: y ++ crlfBlank := by
    intro x y hxy hy
    rcases List.append_eq_append_iff.mp hxy with ⟨c, -, hc⟩ | ⟨a, ha, rfl⟩
    · exact hcr hy (fun hmem => hmore (hc ▸ List.mem_append_right c hmem)) _
    · rw [List.append_assoc]
      rcases List.append_eq_append_iff.mp ha with ⟨c, -, hc⟩ | ⟨y', hy', rfl⟩
      · by_cases hnil : a = []
        · rw [hnil] at hy ⊢
          exact hcr hy hmore _
        · refine hcr hnil ?_ _
          intro hmem
          have hlf : (13 : UInt8) ∈ lfBlank := hc ▸ List.mem_append_right c hmem
          exact absurd hlf (by decide)
      · by_cases hnil : y' = []
        · rw [hnil]
          exact hcr (by decide) (by decide) _
        · have hnot := splitHeaders_first (by rw [h]; exact hy') hnil
          rw [h] at hnot
          exact not_crlfBlank_of_lf hnil (startsBlank_eq_false hnot).1
  rw [cgiHeaderEnd, ← List.append_assoc, show [13, 10, 13, 10] = crlfBlank from rfl,
    findBytes_of_first (List.prefix_refl _) hfirst]

end FirstBlank

/-! ### No byte of the body

The two-run statement: exchange the body and the status is the same.  It fails only
where a body can bring a blank line that is found before the one which ended the
header part.
-/

/-- The last line read decides, if it is a `Status:` with a number. -/
theorem extractCgiStatus_of_lastLine {output head line : Bytes} {code : Nat}
    (hend : cgiHeaderEnd output = some (head ++ 10 :: line).length)
    (hread : head ++ 10 :: line <+: output)
    (hline : lines (fromUtf8Lossy line) = [fromUtf8Lossy line])
    (hcode : ∀ acc, cgiStatusLine acc (fromUtf8Lossy line) = (code, true)) :
    (extractCgiStatus output).1 = code := by
  have htake : output.take (head ++ 10 :: line).length = head ++ 10 :: line :=
    (List.prefix_iff_eq_take.mp hread).symm
  have htext : fromUtf8Lossy (head ++ 10 :: line) = fromUtf8Lossy head ++ '\n' :: fromUtf8Lossy line :=
    fromUtf8Lossy_append (by decide) head line
  unfold extractCgiStatus
  rw [hend]
  simp only [htake, htext]
  rw [lines_append, List.foldl_append, hline]
  simp only [List.foldl_cons, List.foldl_nil, hcode]

/--
**The status comes from the header part alone exactly when the blank line after it
is one of carriage returns.**

Where the blank line is one of line feeds a body is found that changes the status: a
first line that is read as a header, and a blank line of carriage returns behind it.
-/
theorem status_without_body_iff (head blank : Bytes) (hblank : blank = crlfBlank ∨ blank = lfBlank)
    (hfirst : splitHeaders (head ++ blank) = (head, blank)) :
    (∀ body body', extractCgiStatus (head ++ blank ++ body) =
        extractCgiStatus (head ++ blank ++ body')) ↔ blank = crlfBlank := by
  constructor
  · intro hsame
    rcases hblank with rfl | rfl
    · rfl
    · exfalso
      -- A body whose first line is a status line is read as a header.
      have hread : ∀ (line : Bytes) (code : Nat), (13 : UInt8) ∉ line →
          lines (fromUtf8Lossy line) = [fromUtf8Lossy line] →
          (∀ acc, cgiStatusLine acc (fromUtf8Lossy line) = (code, true)) →
          (extractCgiStatus (head ++ lfBlank ++ (line ++ crlfBlank))).1 = code := by
        intro line code hcr hline hcode
        have hcut : head ++ lfBlank ++ line = (head ++ [10]) ++ 10 :: line := by simp [lfBlank]
        have hend : cgiHeaderEnd (head ++ lfBlank ++ (line ++ crlfBlank)) =
            some (head ++ [10] ++ 10 :: line).length := by
          rw [cgiHeaderEnd_lf hfirst hcr, hcut]
        have hread : head ++ [10] ++ 10 :: line <+: head ++ lfBlank ++ (line ++ crlfBlank) := by
          rw [← hcut, ← List.append_assoc]
          exact List.prefix_append _ _
        exact extractCgiStatus_of_lastLine hend hread hline hcode
      have h404 := hread (asBytes "Status: 404".toList) 404 (by decide +kernel) (by decide +kernel)
        fun acc => by rfl
      have h405 := hread (asBytes "Status: 405".toList) 405 (by decide +kernel) (by decide +kernel)
        fun acc => by rfl
      rw [hsame _ (asBytes "Status: 405".toList ++ crlfBlank), h405] at h404
      exact absurd h404 (by decide)
  · rintro rfl body body'
    unfold extractCgiStatus
    rw [cgiHeaderEnd_crlf hfirst, cgiHeaderEnd_crlf hfirst, List.append_assoc, List.append_assoc]
    simp only [List.take_left]

theorem status_without_body_plain :
    extractCgiStatus (asBytes "Status: 404\r\n\r\nx".toList) =
      extractCgiStatus (asBytes "Status: 404\r\n\r\nStatus: 200\r\n\r\n".toList) :=
  (status_without_body_iff (asBytes "Status: 404".toList) crlfBlank (.inl rfl)
    (by decide +kernel)).mpr rfl [120] (asBytes "Status: 200\r\n\r\n".toList)

/--
**A body decides.**

The header part ends at the line feeds, and a body with a status line and a blank
line of its own is read up to there.
-/
theorem body_sets_status :
    splitHeaders (asBytes "A: b\n\n".toList) = (asBytes "A: b".toList, lfBlank) ∧
      extractCgiStatus (asBytes "A: b\n\nhello".toList) = (200, "OK".toList) ∧
      extractCgiStatus (asBytes "A: b\n\nStatus: 404\r\n\r\n".toList) = (404, "Not Found".toList) := by
  decide +kernel

/-! ### The documented order

What should decide is, in this order, the first `Status:`, a `Location:`, and a
leading `HTTP/` line, and 200 where there is none of them.  What is computed instead
is the last `Status:` with a number that fits, or 302 where there is only a
`Location:`.  The condition below is about the output alone and has a field for each
way to end a header part.
-/

/-- The number of a `Status:` line, if it begins with one. -/
def statusNumber (line : Str) : Option Nat :=
  (splitOnce ':' line).bind fun field =>
    if eqIgnoreAsciiCase (trim field.1) "status".toList then
      parseDigits ((trim field.2).takeWhile Char.isDigit)
    else none

def isLocation (line : Str) : Bool :=
  (splitOnce ':' line).any fun field => eqIgnoreAsciiCase (trim field.1) "location".toList

/-- The code of a leading `HTTP/` status line. -/
def httpCode (header : Str) : Option Nat :=
  if "HTTP/".toList.isPrefixOf header then
    parseDigits ((trimStart (header.dropWhile fun c => !isWhitespace c)).takeWhile Char.isDigit)
  else none

/-- The numbers of the `Status:` lines, in order. -/
def statusNumbers (ls : List Str) : List Nat := ls.filterMap statusNumber

/--
The status a header part asks for: the number of the first `Status:` line, else 302
where there is a `Location:` line, else the code of a leading `HTTP/` line, and 200
where there is nothing of the sort.
-/
def documentedStatus (header : Bytes) : Nat :=
  match statusNumbers (lines (fromUtf8Lossy header)) with
  | n :: _ => n
  | [] =>
      if (lines (fromUtf8Lossy header)).any isLocation then 302
      else (httpCode (fromUtf8Lossy header)).getD 200

/-- The lines the server reads; none at all when there is no blank line. -/
def linesRead (output : Bytes) : List Str :=
  match cgiHeaderEnd output with
  | none => []
  | some stop => lines (fromUtf8Lossy (output.take stop))

/-- A status is a `u16`. -/
def fitsU16 (n : Nat) : Bool := decide (n ≤ 65535)

/-- The last number of a `Status:` line that fits a `u16`. -/
def lastStatus (ls : List Str) : Option Nat := ((statusNumbers ls).filter fitsU16).getLast?

theorem parseInt_digits {ds : Str} (h : ∀ c ∈ ds, c.isDigit = true) :
    parseInt 0 65535 ds = ((parseDigits ds).filter fitsU16).map Int.ofNat := by
  have hnat : (parseDigits ds).bind (fun n => inRange 0 65535 (n : Int)) =
      ((parseDigits ds).filter fitsU16).map Int.ofNat := by
    cases parseDigits ds with
    | none => rfl
    | some n =>
        rw [Option.bind_some, Option.filter_some, inRange, fitsU16]
        by_cases hn : n ≤ 65535
        · rw [if_pos (by omega), if_pos (decide_eq_true hn)]
          rfl
        · rw [if_neg (by omega), if_neg (by simpa using hn)]
          rfl
  unfold parseInt
  split
  · exact absurd (h '-' List.mem_cons_self) (by decide)
  · exact absurd (h '+' List.mem_cons_self) (by decide)
  · exact hnat

theorem cgiStatusLine_eq (acc : Nat × Bool) (line : Str) :
    cgiStatusLine acc line =
      match (statusNumber line).filter fitsU16 with
      | some n => (n, true)
      | none => if !acc.2 && isLocation line then (302, true) else acc := by
  unfold cgiStatusLine statusNumber isLocation
  cases hsplit : splitOnce ':' line with
  | none => simp
  | some field =>
      simp only [Option.bind_some, Option.any_some]
      by_cases hstatus : eqIgnoreAsciiCase (trim field.1) "status".toList = true
      · -- A field of one name is not a field of the other.
        have hlocation : eqIgnoreAsciiCase (trim field.1) "location".toList = false := by
          unfold eqIgnoreAsciiCase at hstatus ⊢
          rw [of_decide_eq_true hstatus]
          decide
        simp only [if_pos hstatus, hlocation, Bool.and_false,
          parseInt_digits fun c hc => List.mem_takeWhile_imp hc]
        cases (parseDigits ((trim field.2).takeWhile Char.isDigit)).filter fitsU16 with
        | none => rfl
        | some n => rfl
      · rw [if_neg hstatus, if_neg hstatus]
        rfl

theorem lastStatus_cons (l : Str) (ls : List Str) :
    lastStatus (l :: ls) = (lastStatus ls).or ((statusNumber l).filter fitsU16) := by
  unfold lastStatus statusNumbers
  rw [List.filterMap_cons]
  cases statusNumber l with
  | none => simp
  | some n =>
      rw [List.filter_cons, Option.filter_some]
      by_cases hn : fitsU16 n = true
      · rw [if_pos hn, if_pos hn, List.getLast?_cons]
        cases ((ls.filterMap statusNumber).filter fitsU16).getLast? with
        | none => rfl
        | some m => rfl
      · rw [if_neg hn, if_neg hn, Option.or_none]

theorem foldl_cgiStatusLine (ls : List Str) (status : Nat) (set : Bool) :
    (ls.foldl cgiStatusLine (status, set)).1 =
      (lastStatus ls).getD (if !set && ls.any isLocation then 302 else status) := by
  induction ls generalizing status set with
  | nil => simp [lastStatus, statusNumbers]
  | cons l ls ih =>
      rw [List.foldl_cons, cgiStatusLine_eq, lastStatus_cons]
      cases hn : (statusNumber l).filter fitsU16 with
      | some n =>
          simp only [ih]
          cases lastStatus ls with
          | none => rfl
          | some m => rfl
      | none =>
          simp only [Option.or_none]
          by_cases hl : (!set && isLocation l) = true
          · rw [if_pos hl, ih]
            rw [Bool.and_eq_true] at hl
            simp [hl.1, hl.2]
          · rw [if_neg hl, ih]
            cases set with
            | true => rfl
            | false =>
                have hloc : isLocation l = false := by simpa using hl
                simp [hloc]

theorem extractCgiStatus_eq (output : Bytes) :
    (extractCgiStatus output).1 =
      (lastStatus (linesRead output)).getD (if (linesRead output).any isLocation then 302 else 200) := by
  unfold extractCgiStatus linesRead
  cases cgiHeaderEnd output with
  | none => rfl
  | some stop => exact foldl_cgiStatusLine _ 200 false

/-- The header part of an output, without the blank line. -/
def headerPart (output : Bytes) : Bytes := (splitHeaders output).1

/-- What stands before the first blank line of carriage returns, if there is one. -/
def beforeCrlfBlank : Bytes → Option Bytes
  | [] => none
  | b :: bs =>
      if crlfBlank.isPrefixOf (b :: bs) then some []
      else (beforeCrlfBlank bs).map (b :: ·)

theorem beforeCrlfBlank_eq (bs : Bytes) :
    beforeCrlfBlank bs = (findBytes crlfBlank bs).map (bs.take ·) := by
  induction bs with
  | nil => rfl
  | cons b bs ih =>
      rw [beforeCrlfBlank, findBytes]
      split
      · rfl
      · rw [ih, Option.map_map, Option.map_map]
        rfl

/--
The lines of the body that stand before a blank line of carriage returns, where the
header part was ended by one of line feeds.
-/
def strayLines (output : Bytes) : List Str :=
  match (splitHeaders output).2 with
  | 10 :: 10 :: body => lines (fromUtf8Lossy ((beforeCrlfBlank body).getD []))
  | _ => []

/-- The server searches from the first blank line on, for one of carriage returns first. -/
theorem cgiHeaderEnd_eq (output : Bytes) :
    cgiHeaderEnd output =
      ((findBytes crlfBlank (splitHeaders output).2).or (findBytes lfBlank (splitHeaders output).2)).map
        (· + (headerPart output).length) := by
  have hfirst : ∀ x y, headerPart output = x ++ y → y ≠ [] →
      startsBlank (y ++ (splitHeaders output).2) = false := fun x y => splitHeaders_first
  have hcr := findBytes_skip fun x y hxy hy => (startsBlank_eq_false (hfirst x y hxy hy)).1
  have hlf := findBytes_skip fun x y hxy hy => (startsBlank_eq_false (hfirst x y hxy hy)).2
  rw [headerPart, splitHeaders_append] at hcr hlf
  rw [cgiHeaderEnd, show [13, 10, 13, 10] = crlfBlank from rfl, show [10, 10] = lfBlank from rfl, hcr,
    hlf]
  cases findBytes crlfBlank (splitHeaders output).2 with
  | none => rfl
  | some pos => rfl

theorem take_headerPart (output : Bytes) (n : Nat) :
    output.take (n + (headerPart output).length) =
      headerPart output ++ (splitHeaders output).2.take n := by
  have hsplit : headerPart output ++ (splitHeaders output).2 = output := splitHeaders_append output
  rw [Nat.add_comm]
  exact (congrArg (List.take _) hsplit).symm.trans (List.take_length_add_append n)

theorem strayLines_crlf {output : Bytes} (h : crlfBlank <+: (splitHeaders output).2) :
    strayLines output = [] := by
  obtain ⟨rest, hrest⟩ := h
  unfold strayLines
  rw [← hrest]
  rfl

theorem strayLines_lf {output body : Bytes} (h : (splitHeaders output).2 = 10 :: 10 :: body) :
    strayLines output = lines (fromUtf8Lossy (((findBytes crlfBlank body).map (body.take ·)).getD [])) := by
  unfold strayLines
  rw [h, ← beforeCrlfBlank_eq]
  rfl

theorem statusNumber_concat_cr (line : Str) : statusNumber (line ++ ['\r']) = statusNumber line := by
  have htrim : ∀ s : Str, trim (s ++ ['\r']) = trim s := by
    intro s
    exact (trim_append_iff (by decide) s []).mpr (by simp)
  unfold statusNumber
  rw [splitOnce_concat (by decide)]
  cases splitOnce ':' line with
  | none => rfl
  | some field => simp only [Option.map_some, Option.bind_some, htrim]

theorem isLocation_concat_cr (line : Str) : isLocation (line ++ ['\r']) = isLocation line := by
  unfold isLocation
  rw [splitOnce_concat (by decide)]
  cases splitOnce ':' line with
  | none => rfl
  | some field => rfl

/-- Without a blank line nothing is read. -/
theorem linesRead_unended {output : Bytes} (h : (splitHeaders output).2 = []) :
    linesRead output = [] := by
  unfold linesRead
  rw [cgiHeaderEnd_eq, h]
  rfl

/-- As far as their fields go, the lines of the header part are read, and the stray ones. -/
theorem filterMap_linesRead {α : Type} {f : Str → Option α} {output : Bytes}
    (h : (splitHeaders output).2 ≠ []) (hnil : f [] = none) (hcr : ∀ l, f (l ++ ['\r']) = f l) :
    (linesRead output).filterMap f =
      (lines (fromUtf8Lossy (headerPart output))).filterMap f ++ (strayLines output).filterMap f := by
  unfold linesRead
  rw [cgiHeaderEnd_eq]
  rcases startsBlank_iff.mp ((splitHeaders_rest output).resolve_left h) with hcrlf | ⟨body, hbody⟩
  · rw [findBytes_of_isPrefix hcrlf, strayLines_crlf hcrlf]
    simp only [Option.some_or, Option.map_some, take_headerPart, List.take_zero, List.append_nil,
      List.filterMap_nil]
  · replace hbody : (splitHeaders output).2 = 10 :: 10 :: body := hbody.symm
    have hskip : findBytes crlfBlank (10 :: 10 :: body) = (findBytes crlfBlank body).map (· + 1 + 1) := by
      rw [crlfBlank, findBytes_cons (by decide), findBytes_cons (by decide), Option.map_map]
      rfl
    rw [strayLines_lf hbody, hbody, hskip,
      findBytes_of_isPrefix (⟨body, rfl⟩ : lfBlank <+: 10 :: 10 :: body)]
    cases findBytes crlfBlank body with
    | none =>
        simp only [Option.map_none, Option.none_or, Option.map_some, take_headerPart, List.take_zero,
          List.append_nil, Option.getD_none]
        rw [show lines (fromUtf8Lossy []) = [] from rfl, List.filterMap_nil, List.append_nil]
    | some pos =>
        -- The two line feeds end the last header line and an empty one.
        have htext : ∀ stray : Bytes, fromUtf8Lossy (headerPart output ++ 10 :: 10 :: stray) =
            fromUtf8Lossy (headerPart output) ++ '\n' :: ([] ++ '\n' :: fromUtf8Lossy stray) :=
          fun stray => by
            rw [fromUtf8Lossy_append (by decide), List.nil_append]
            exact congrArg (fun s => fromUtf8Lossy (headerPart output) ++ '\n' :: s)
              (fromUtf8Lossy_append (by decide) [] stray)
        simp only [Option.map_some, Option.some_or, take_headerPart, hbody, List.take_succ_cons,
          Option.getD_some, htext]
        rw [lines_append, lines_append [], List.filterMap_append, List.filterMap_append,
          filterMap_lines_concat hnil hcr, filterMap_lines_concat hnil hcr]
        rfl

/-- A `Location:` line, as something the lines are filtered for. -/
def locationMark (line : Str) : Option Unit := if isLocation line then some () else none

theorem any_isLocation_iff (ls : List Str) :
    ls.any isLocation = true ↔ () ∈ ls.filterMap locationMark := by
  rw [List.any_eq_true, List.mem_filterMap]
  constructor
  · rintro ⟨l, hl, hloc⟩
    exact ⟨l, hl, if_pos hloc⟩
  · rintro ⟨l, hl, hmark⟩
    refine ⟨l, hl, ?_⟩
    by_contra hloc
    rw [locationMark, if_neg hloc] at hmark
    cases hmark

/-- The last number of a list that a `u16` can hold. -/
def IsLastU16 (n : Nat) (ns : List Nat) : Prop :=
  ∃ before after, ns = before ++ n :: after ∧ n ≤ 65535 ∧ ∀ m ∈ after, 65535 < m

theorem getLast?_fitsU16 {n : Nat} {ns : List Nat} :
    (ns.filter fitsU16).getLast? = some n ↔ IsLastU16 n ns := by
  rw [List.getLast?_filter, List.find?_eq_some_iff_append]
  constructor
  · rintro ⟨hn, after, before, hns, hafter⟩
    refine ⟨before.reverse, after.reverse, ?_, of_decide_eq_true hn, fun m hm => ?_⟩
    · rw [← List.reverse_reverse ns, hns]
      simp
    · have hnot := hafter m (List.mem_reverse.mp hm)
      rw [fitsU16, Bool.not_eq_true', decide_eq_false_iff_not] at hnot
      exact Nat.lt_of_not_le hnot
  · rintro ⟨before, after, rfl, hn, hafter⟩
    refine ⟨decide_eq_true hn, after.reverse, before.reverse, by simp, fun m hm => ?_⟩
    rw [fitsU16, Bool.not_eq_true', decide_eq_false_iff_not]
    exact Nat.not_le_of_lt (hafter m (List.mem_reverse.mp hm))

theorem getLast?_fitsU16_none {ns : List Nat} :
    (ns.filter fitsU16).getLast? = none ↔ ∀ n ∈ ns, 65535 < n := by
  rw [List.getLast?_eq_none_iff, List.filter_eq_nil_iff]
  refine forall₂_congr fun n _ => ?_
  rw [fitsU16, decide_eq_true_eq, Nat.not_le]

/--
When the status is the documented one, as a matter of the output: of what ends its
header part, of the `Status:` numbers in there, and of the lines a body may bring
along.
-/
structure OrderKept (output : Bytes) : Prop where
  /-- Headers that nothing ends are answered with 200, so they must ask for no other status. -/
  unended : (splitHeaders output).2 = [] →
    let header := fromUtf8Lossy (headerPart output)
    (∀ n ∈ (statusNumbers (lines header)).head?, n = 200) ∧
      (statusNumbers (lines header) = [] →
        (lines header).any isLocation = false ∧ ∀ code ∈ httpCode header, code = 200)
  /-- Of several `Status:` numbers the last counts, one in a stray line too, and one beyond a
  `u16` never does. -/
  status : (splitHeaders output).2 ≠ [] →
    let numbers := statusNumbers (lines (fromUtf8Lossy (headerPart output)))
    ∀ n ∈ numbers.head?, IsLastU16 n (numbers ++ statusNumbers (strayLines output))
  /-- A `Location:` gives way to the `Status:` of a stray line. -/
  location : (splitHeaders output).2 ≠ [] →
    let header := lines (fromUtf8Lossy (headerPart output))
    statusNumbers header = [] → header.any isLocation = true →
      ∀ n, IsLastU16 n (statusNumbers (strayLines output)) → n = 302
  /-- Nobody looks at an `HTTP/` line, so it must name what comes out without it. -/
  http : (splitHeaders output).2 ≠ [] →
    let header := fromUtf8Lossy (headerPart output)
    statusNumbers (lines header) = [] → (lines header).any isLocation = false →
      (∀ n, IsLastU16 n (statusNumbers (strayLines output)) → (httpCode header).getD 200 = n) ∧
      ((∀ n ∈ statusNumbers (strayLines output), 65535 < n) →
        (httpCode header).getD 200 = if (strayLines output).any isLocation then 302 else 200)

/-- What comes out of a search for the last number, with a value for no number. -/
theorem getLast?_fitsU16_getD {ns : List Nat} {d v : Nat} :
    (ns.filter fitsU16).getLast?.getD d = v ↔
      (∀ n, IsLastU16 n ns → v = n) ∧ ((∀ n ∈ ns, 65535 < n) → v = d) := by
  simp only [← getLast?_fitsU16, ← getLast?_fitsU16_none]
  cases (ns.filter fitsU16).getLast? with
  | none => simp [eq_comm]
  | some m => simp [eq_comm]

/--
The status of an output whose header part is ended, from the numbers and the
`Location:` lines of the header part and of the stray lines.
-/
theorem extractCgiStatus_ended {output : Bytes} (h : (splitHeaders output).2 ≠ []) :
    (extractCgiStatus output).1 =
      ((statusNumbers (lines (fromUtf8Lossy (headerPart output))) ++
          statusNumbers (strayLines output)).filter fitsU16).getLast?.getD
        (if (lines (fromUtf8Lossy (headerPart output))).any isLocation ∨
            (strayLines output).any isLocation then 302 else 200) := by
  have hnums : statusNumbers (linesRead output) =
      statusNumbers (lines (fromUtf8Lossy (headerPart output))) ++ statusNumbers (strayLines output) :=
    filterMap_linesRead h rfl statusNumber_concat_cr
  have hmarks := filterMap_linesRead (f := locationMark) h rfl fun l => by
    rw [locationMark, isLocation_concat_cr, locationMark]
  have hloc : (linesRead output).any isLocation = true ↔
      (lines (fromUtf8Lossy (headerPart output))).any isLocation = true ∨
        (strayLines output).any isLocation = true := by
    rw [any_isLocation_iff, any_isLocation_iff, any_isLocation_iff, hmarks, List.mem_append]
  rw [extractCgiStatus_eq, lastStatus, hnums]
  congr 1
  exact if_congr hloc rfl rfl

/-! Of an output only one field of the condition says anything: which one, is a matter of the
blank line and of what the header part holds. -/

section Kinds

variable {output : Bytes}

theorem orderKept_unended (hend : (splitHeaders output).2 = []) :
    OrderKept output ↔
      (∀ n ∈ (statusNumbers (lines (fromUtf8Lossy (headerPart output)))).head?, n = 200) ∧
        (statusNumbers (lines (fromUtf8Lossy (headerPart output))) = [] →
          (lines (fromUtf8Lossy (headerPart output))).any isLocation = false ∧
            ∀ code ∈ httpCode (fromUtf8Lossy (headerPart output)), code = 200) :=
  ⟨fun h => h.unended hend, fun h => ⟨fun _ => h, fun hne => absurd hend hne,
    fun hne => absurd hend hne, fun hne => absurd hend hne⟩⟩

theorem orderKept_status {n : Nat} {rest : List Nat} (hend : (splitHeaders output).2 ≠ [])
    (hnums : statusNumbers (lines (fromUtf8Lossy (headerPart output))) = n :: rest) :
    OrderKept output ↔ IsLastU16 n (n :: rest ++ statusNumbers (strayLines output)) := by
  constructor
  · intro h
    have hlast := h.status hend n
    rw [hnums] at hlast
    exact hlast rfl
  · intro hlast
    constructor
    · exact fun hnone => absurd hnone hend
    · intro _ numbers m hm
      rw [show numbers = n :: rest from hnums] at hm ⊢
      rw [← Option.some.inj hm]
      exact hlast
    · intro _ header hnone
      rw [show statusNumbers header = n :: rest from hnums] at hnone
      cases hnone
    · intro _ header hnone
      rw [show statusNumbers (lines header) = n :: rest from hnums] at hnone
      cases hnone

theorem orderKept_location (hend : (splitHeaders output).2 ≠ [])
    (hnums : statusNumbers (lines (fromUtf8Lossy (headerPart output))) = [])
    (hloc : (lines (fromUtf8Lossy (headerPart output))).any isLocation = true) :
    OrderKept output ↔ ∀ n, IsLastU16 n (statusNumbers (strayLines output)) → n = 302 := by
  constructor
  · exact fun h => h.location hend hnums hloc
  · intro hstray
    constructor
    · exact fun hnone => absurd hnone hend
    · intro _ numbers m hm
      rw [show numbers = [] from hnums] at hm
      cases hm
    · exact fun _ _ _ => hstray
    · intro _ header _ hnot
      rw [show (lines header).any isLocation = true from hloc] at hnot
      cases hnot

theorem orderKept_http (hend : (splitHeaders output).2 ≠ [])
    (hnums : statusNumbers (lines (fromUtf8Lossy (headerPart output))) = [])
    (hloc : (lines (fromUtf8Lossy (headerPart output))).any isLocation = false) :
    OrderKept output ↔
      (∀ n, IsLastU16 n (statusNumbers (strayLines output)) →
        (httpCode (fromUtf8Lossy (headerPart output))).getD 200 = n) ∧
      ((∀ n ∈ statusNumbers (strayLines output), 65535 < n) →
        (httpCode (fromUtf8Lossy (headerPart output))).getD 200 =
          if (strayLines output).any isLocation then 302 else 200) := by
  constructor
  · exact fun h => h.http hend hnums hloc
  · intro hstray
    constructor
    · exact fun hnone => absurd hnone hend
    · intro _ numbers m hm
      rw [show numbers = [] from hnums] at hm
      cases hm
    · intro _ header _ hyes
      rw [show header.any isLocation = false from hloc] at hyes
      cases hyes
    · exact fun _ _ _ => hstray

end Kinds

/-- Where nothing ends the header part the answer is 200, which has to be the documented one. -/
theorem orderKept_iff_unended {output : Bytes} (hend : (splitHeaders output).2 = []) :
    200 = documentedStatus (headerPart output) ↔ OrderKept output := by
  rw [orderKept_unended hend, documentedStatus]
  cases statusNumbers (lines (fromUtf8Lossy (headerPart output))) with
  | cons n rest =>
      refine ⟨fun h => ⟨fun m hm => (Option.some.inj hm).symm.trans h.symm, nofun⟩, fun h => ?_⟩
      exact (h.1 n rfl).symm
  | nil =>
      have hnone : ∀ n ∈ ([] : List Nat).head?, n = 200 := nofun
      cases (lines (fromUtf8Lossy (headerPart output))).any isLocation with
      | true =>
          have hfound : ¬ 200 = 302 := by decide
          exact iff_of_false hfound fun h => Bool.false_ne_true (h.2 rfl).1.symm
      | false =>
          cases httpCode (fromUtf8Lossy (headerPart output)) with
          | none => exact iff_of_true rfl ⟨hnone, fun _ => ⟨rfl, nofun⟩⟩
          | some code =>
              refine ⟨fun h => ⟨hnone, fun _ => ⟨rfl, fun m hm => ?_⟩⟩, fun h => ?_⟩
              · exact (Option.some.inj hm).symm.trans h.symm
              · exact ((h.2 rfl).2 code rfl).symm

/--
**The status is the documented one exactly for these outputs.**  A header part that a
blank line of carriage returns ends brings no stray lines, so there only a repeated
`Status:`, a number beyond a `u16` and a leading `HTTP/` line are left to go wrong.

Only one field of the condition speaks about a given output: which of them is
decided by what ends the header part and by what it holds.
-/
theorem documented_status_iff (output : Bytes) :
    (extractCgiStatus output).1 = documentedStatus (headerPart output) ↔ OrderKept output := by
  by_cases hend : (splitHeaders output).2 = []
  · -- nothing is read, and the answer is 200
    have hcode : (extractCgiStatus output).1 = 200 := by
      rw [extractCgiStatus_eq, linesRead_unended hend]
      rfl
    rw [hcode]
    exact orderKept_iff_unended hend
  · rw [extractCgiStatus_ended hend, documentedStatus]
    cases hnums : statusNumbers (lines (fromUtf8Lossy (headerPart output))) with
    | cons n rest =>
        rw [orderKept_status hend hnums, ← getLast?_fitsU16]
        simp only
        cases hlast : ((n :: rest ++ statusNumbers (strayLines output)).filter fitsU16).getLast? with
        | some m => simp
        | none =>
            -- the number is one that nobody reads, and no other value is as large
            have hbig := getLast?_fitsU16_none.mp hlast n List.mem_cons_self
            refine iff_of_false ?_ (by simp)
            rw [Option.getD_none]
            split <;> omega
    | nil =>
        simp only [List.nil_append]
        cases hloc : (lines (fromUtf8Lossy (headerPart output))).any isLocation with
        | true =>
            rw [orderKept_location hend hnums hloc, if_pos rfl, getLast?_fitsU16_getD,
              if_pos (.inl rfl)]
            simp [eq_comm]
        | false =>
            rw [orderKept_http hend hnums hloc, if_neg Bool.false_ne_true, getLast?_fitsU16_getD]
            simp only [Bool.false_eq_true, false_or]

/--
**The `HTTP/` line, a later `Status:`, and headers that nothing ends.**

Three outputs, one for each way: the first is a status line that nobody looks at,
the second has two numbers and the last one counts, and the third never ends.
-/
theorem documented_status_differs :
    (documentedStatus (headerPart (asBytes "HTTP/1.0 404 Not Found\nA: b\n\n".toList)) = 404 ∧
      (extractCgiStatus (asBytes "HTTP/1.0 404 Not Found\nA: b\n\n".toList)).1 = 200) ∧
    (documentedStatus (headerPart (asBytes "Status: 404\nStatus: 500\n\n".toList)) = 404 ∧
      (extractCgiStatus (asBytes "Status: 404\nStatus: 500\n\n".toList)).1 = 500) ∧
    (documentedStatus (headerPart (asBytes "Status: 404\n".toList)) = 404 ∧
      (extractCgiStatus (asBytes "Status: 404\n".toList)).1 = 200) := by
  decide +kernel

end Thttpd
