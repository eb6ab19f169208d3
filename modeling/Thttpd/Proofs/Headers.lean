/-
Two readings of the header lines.

The detection machine, and `bufgets` of the server this one is a port of, end a line at
a carriage return, a line feed, or both.  `extract_header` sees the text after the first
line feed and cuts it at line feeds alone.  So a line that follows a bare carriage
return is not seen, and what it says is taken for a part of the line before it.

The lines of the head are cut once, the way the machine cuts them, with the two facts
that decide what the server makes of each: whether it sees a line begin there, and what
it takes for the rest of it.

The result is stated over the lines of the machine.  Which of them the server sees,
and with what behind them, is computed along the cut, and the condition is read off
the one line the machine would take the header from.
-/
import Thttpd.Proofs.RequestLine
import Thttpd.Legacy.Libhttpd
import Thttpd.Lib.Case
import Mathlib.Data.List.Find

namespace Thttpd

open Text

/-! ### The lines of a head

`bufgets` is the function of the C server that yields one line after the other.  Its
lines are those of the cut, so the lines here are not a notion of this development
alone.
-/

/-- How a line ended. -/
inductive LineEnd where
  | cr
  | lf
  | crlf
  deriving DecidableEq, Repr

/-- Whether the server takes it for the end of a line. -/
def LineEnd.feeds : LineEnd → Bool
  | .cr => false
  | .lf | .crlf => true

def LineEnd.bytes : LineEnd → Bytes
  | .cr => [13]
  | .lf => [10]
  | .crlf => [13, 10]

/-- The lines `bufgets` comes to, called until it finds none. -/
inductive ReadsLines : Bytes → List Bytes → Prop
  | done {bs : Bytes} : Legacy.bufgets bs = none → ReadsLines bs []
  | line {bs line rest : Bytes} {lines : List Bytes} :
      Legacy.bufgets bs = some (line, rest) → ReadsLines rest lines → ReadsLines bs (line :: lines)

/-- One more byte in front of the first line. -/
def consFirst (c : UInt8) : List (Bytes × LineEnd) → List (Bytes × LineEnd)
  | [] => []
  | (line, e) :: lines => (c :: line, e) :: lines

/-- The lines of `bs`, each with its end.  A last line without an end is left out. -/
def cutLines : Bytes → List (Bytes × LineEnd)
  | [] => []
  | c :: rest =>
      if isCr c then
        match rest with
        | [] => [([], .cr)]
        | d :: rest' =>
            if isLf d then ([], .crlf) :: cutLines rest' else ([], .cr) :: cutLines (d :: rest')
      else if isLf c then ([], .lf) :: cutLines rest
      else consFirst c (cutLines rest)

theorem cutLines_crlf {c d : UInt8} (hc : isCr c = true) (hd : isLf d = true) (rest : Bytes) :
    cutLines (c :: d :: rest) = ([], .crlf) :: cutLines rest := by
  rw [cutLines.eq_def]
  simp only [hc, hd, if_true]

theorem cutLines_cr {c : UInt8} (hc : isCr c = true) {rest : Bytes} (h : rest.head? ≠ some 10) :
    cutLines (c :: rest) = ([], .cr) :: cutLines rest := by
  rw [cutLines.eq_def]
  cases rest with
  | nil => simp only [hc, if_true, cutLines]
  | cons d rest =>
      have hd : isLf d = false := by simpa [isLf] using h
      simp only [hc, hd, if_true, Bool.false_eq_true, if_false]

theorem cutLines_lf {c : UInt8} (hc : isLf c = true) (rest : Bytes) :
    cutLines (c :: rest) = ([], .lf) :: cutLines rest := by
  have hcr : isCr c = false := by rw [isLf_iff.mp hc]; rfl
  rw [cutLines.eq_def]
  simp only [hcr, hc, if_true, Bool.false_eq_true, if_false]

theorem cutLines_other {c : UInt8} (hc : isEol c = false) (rest : Bytes) :
    cutLines (c :: rest) = consFirst c (cutLines rest) := by
  obtain ⟨hcr, hlf⟩ := isEol_eq_false hc
  rw [cutLines.eq_def]
  simp only [hcr, hlf, Bool.false_eq_true, if_false]

/-- Every way the bytes can go on, for an induction along the cut. -/
theorem cutLines_induction {motive : Bytes → Prop} (nil : motive [])
    (crlf : ∀ c d rest, isCr c = true → isLf d = true → motive rest → motive (c :: d :: rest))
    (cr : ∀ c rest, isCr c = true → rest.head? ≠ some 10 → motive rest → motive (c :: rest))
    (lf : ∀ c rest, isLf c = true → motive rest → motive (c :: rest))
    (other : ∀ c rest, isEol c = false → motive rest → motive (c :: rest)) (bs : Bytes) :
    motive bs := by
  induction bs using cutLines.induct with
  | case1 => exact nil
  | case2 c hcr => exact cr c [] hcr (by simp) nil
  | case3 c hcr d rest hlf ih => exact crlf c d rest hcr hlf ih
  | case4 c hcr d rest hlf ih => exact cr c (d :: rest) hcr (by simpa [isLf] using hlf) ih
  | case5 c rest hcr hlf ih => exact lf c rest hlf ih
  | case6 c rest hcr hlf ih => exact other c rest (by simp [isEol, hcr, hlf]) ih

/-- `bufgets` reads these lines one by one. -/
theorem bufgets_cutLines (bs : Bytes) :
    match Legacy.bufgets bs with
    | none => cutLines bs = []
    | some (line, rest) => ∃ e, cutLines bs = (line, e) :: cutLines rest := by
  induction bs with
  | nil => rfl
  | cons c rest ih =>
      rw [Legacy.bufgets]
      by_cases hc : c = 10 ∨ c = 13
      · rw [if_pos hc]
        by_cases hcrlf : c = 13 ∧ rest.head? = some 10
        · rw [if_pos hcrlf]
          obtain ⟨tail, rfl⟩ := List.head?_eq_some_iff.mp hcrlf.2
          exact ⟨.crlf, cutLines_crlf (by simp [hcrlf.1]) (by decide) tail⟩
        · rw [if_neg hcrlf]
          rcases hc with hlf | hcr
          · exact ⟨.lf, cutLines_lf (by simp [hlf]) rest⟩
          · exact ⟨.cr, cutLines_cr (by simp [hcr]) fun hhead => hcrlf ⟨hcr, hhead⟩⟩
      · have hother : isEol c = false := by
          rw [Bool.eq_false_iff, ne_eq, isEol_iff, or_comm]
          exact hc
        rw [if_neg hc]
        cases hb : Legacy.bufgets rest with
        | none =>
            rw [hb] at ih
            show cutLines (c :: rest) = []
            rw [cutLines_other hother, ih]
            rfl
        | some p =>
            obtain ⟨line, rest'⟩ := p
            rw [hb] at ih
            obtain ⟨e, he⟩ := ih
            refine ⟨e, ?_⟩
            rw [cutLines_other hother, he]
            rfl

/-- So these are the lines it comes to. -/
theorem readsLines_cutLines (bs : Bytes) : ReadsLines bs ((cutLines bs).map Prod.fst) := by
  generalize hlines : cutLines bs = lines
  induction lines generalizing bs with
  | nil =>
      have hcut := bufgets_cutLines bs
      cases hread : Legacy.bufgets bs with
      | none => exact .done hread
      | some p =>
          simp only [hread] at hcut
          obtain ⟨e, he⟩ := hcut
          cases hlines.symm.trans he
  | cons l lines ih =>
      have hcut := bufgets_cutLines bs
      cases hread : Legacy.bufgets bs with
      | none =>
          simp only [hread] at hcut
          cases hlines.symm.trans hcut
      | some p =>
          obtain ⟨line, rest⟩ := p
          simp only [hread] at hcut
          obtain ⟨e, he⟩ := hcut
          obtain ⟨rfl, rfl⟩ := List.cons.inj (hlines.symm.trans he)
          exact .line hread (ih rest rfl)

/-- A line of the head, and what the server makes of it. -/
structure HeadLine where
  text : Bytes
  /-- The server sees a line begin here. -/
  seen : Bool
  /-- What follows up to the next line feed, from the bare carriage return on. -/
  tail : Bytes
  deriving DecidableEq, Repr

/-- What the server takes for the rest of a line that ended in `e`. -/
def tailOf : LineEnd → List (Bytes × LineEnd) → Bytes
  | .lf, _ | .crlf, _ => []
  | .cr, [] => [13]
  | .cr, (line, e) :: rest => 13 :: (line ++ tailOf e rest)

def viewFrom : Bool → List (Bytes × LineEnd) → List HeadLine
  | _, [] => []
  | seen, (line, e) :: rest => ⟨line, seen, tailOf e rest⟩ :: viewFrom e.feeds rest

/--
The request line and the header lines.  The server starts after the first line feed,
and at the request line where there is none.
-/
def headView (head : Bytes) : List HeadLine :=
  viewFrom (!(cutLines head).any fun l => l.2.feeds) (cutLines head)

/-- The line as the server reads it. -/
def HeadLine.serverText (l : HeadLine) : Str := fromUtf8Lossy (l.text ++ l.tail)

/-! ### Cutting loses nothing

Lines and ends put together again are the bytes, where the last line is ended, and
what the cut produces has no end inside a line.
-/

/-- The bytes of lines and their ends. -/
def joinLines (lines : List (Bytes × LineEnd)) : Bytes := lines.flatMap fun l => l.1 ++ l.2.bytes

theorem joinLines_cons (line : Bytes) (e : LineEnd) (rest : List (Bytes × LineEnd)) :
    joinLines ((line, e) :: rest) = line ++ (e.bytes ++ joinLines rest) := by
  simp [joinLines]

/--
Lines that a cut can produce: no end inside a line, and no line feed on its own
right after a carriage return.
-/
def Proper : Bool → List (Bytes × LineEnd) → Prop
  | _, [] => True
  | afterCr, (line, e) :: rest =>
      NoEol line ∧ (afterCr = true → line = [] → e ≠ .lf) ∧ Proper (e = .cr) rest

theorem Proper.consFirst {c : UInt8} (hc : isEol c = false) {lines : List (Bytes × LineEnd)}
    (h : Proper false lines) (afterCr : Bool) : Proper afterCr (consFirst c lines) := by
  cases lines with
  | nil => trivial
  | cons l rest =>
      obtain ⟨line, e⟩ := l
      obtain ⟨hline, -, hrest⟩ := h
      refine ⟨?_, ?_, hrest⟩
      · constructor
        intro b hb
        rcases List.mem_cons.mp hb with rfl | hb
        · exact hc
        · exact hline.none b hb
      · intro _ hnil
        cases hnil

/-- A line that is only an end, and not a line feed on its own. -/
theorem Proper.end {e : LineEnd} {rest : List (Bytes × LineEnd)} (he : e ≠ .lf)
    (h : Proper (e = .cr) rest) (afterCr : Bool) : Proper afterCr (([], e) :: rest) :=
  ⟨⟨by simp⟩, fun _ _ => he, h⟩

theorem cutLines_proper (bs : Bytes) : Proper false (cutLines bs) ∧
    (bs.head? ≠ some 10 → Proper true (cutLines bs)) := by
  induction bs using cutLines_induction with
  | nil => exact ⟨trivial, fun _ => trivial⟩
  | crlf c d rest hc hd ih =>
      rw [cutLines_crlf hc hd]
      exact ⟨.end (e := .crlf) (by simp) ih.1 false, fun _ => .end (e := .crlf) (by simp) ih.1 true⟩
  | cr c rest hc hrest ih =>
      rw [cutLines_cr hc hrest]
      exact ⟨.end (e := .cr) (by simp) (ih.2 hrest) false,
        fun _ => .end (e := .cr) (by simp) (ih.2 hrest) true⟩
  | lf c rest hc ih =>
      rw [cutLines_lf hc]
      refine ⟨⟨⟨by simp⟩, by simp, ih.1⟩, ?_⟩
      intro hhead
      exact absurd (by simpa [isLf] using hc) hhead
  | other c rest hc ih =>
      rw [cutLines_other hc]
      exact ⟨ih.1.consFirst hc false, fun _ => ih.1.consFirst hc true⟩

/-- The last byte is the end of a line. -/
def EndsLine (bs : Bytes) : Prop := ∀ e, bs.getLast? = some e → isEol e = true

theorem EndsLine.tail {c : UInt8} {bs : Bytes} (h : EndsLine (c :: bs)) : EndsLine bs := by
  intro e he
  refine h e ?_
  rw [List.getLast?_cons, he]
  rfl

theorem joinLines_consFirst {c : UInt8} {lines : List (Bytes × LineEnd)} (h : lines ≠ []) :
    joinLines (consFirst c lines) = c :: joinLines lines := by
  cases lines with
  | nil => exact absurd rfl h
  | cons l rest => simp [consFirst, joinLines]

theorem joinLines_cutLines (bs : Bytes) (h : EndsLine bs) : joinLines (cutLines bs) = bs := by
  induction bs using cutLines_induction with
  | nil => rfl
  | crlf c d rest hc hd ih =>
      rw [cutLines_crlf hc hd, joinLines_cons, ih h.tail.tail, isCr_iff.mp hc, isLf_iff.mp hd]
      rfl
  | cr c rest hc hrest ih =>
      rw [cutLines_cr hc hrest, joinLines_cons, ih h.tail, isCr_iff.mp hc]
      rfl
  | lf c rest hc ih =>
      rw [cutLines_lf hc, joinLines_cons, ih h.tail, isLf_iff.mp hc]
      rfl
  | other c rest hc ih =>
      have hne : cutLines rest ≠ [] := by
        intro hnil
        have hrest := ih h.tail
        rw [hnil] at hrest
        have hend := h c (by rw [← hrest]; rfl)
        rw [hc] at hend
        cases hend
      rw [cutLines_other hc, joinLines_consFirst hne, ih h.tail]

/-! ### What the server makes of the lines

It decodes what follows the first line feed, cuts at line feeds, and takes off one
carriage return from the end of each line.  A line that ended in a bare carriage
return has not ended for the server, and what follows is a part of it.
-/

theorem lf_notMem_fromUtf8Lossy {bs : Bytes} (h : (10 : UInt8) ∉ bs) :
    '\n' ∉ fromUtf8Lossy bs :=
  notMem_fromUtf8Lossy (b := 10) (by decide) (by decide) h

theorem cr_notMem_fromUtf8Lossy {bs : Bytes} (h : (13 : UInt8) ∉ bs) :
    '\r' ∉ fromUtf8Lossy bs :=
  notMem_fromUtf8Lossy (b := 13) (by decide) (by decide) h

theorem NoEol.notMem {p : Bytes} (h : NoEol p) {c : UInt8} (hc : isEol c = true) : c ∉ p := by
  intro hmem
  rw [h.none c hmem] at hc
  cases hc

theorem fromUtf8Lossy_lf (a b : Bytes) :
    fromUtf8Lossy (a ++ 10 :: b) = fromUtf8Lossy a ++ '\n' :: fromUtf8Lossy b :=
  fromUtf8Lossy_append (by decide) a b

theorem fromUtf8Lossy_cr (a b : Bytes) :
    fromUtf8Lossy (a ++ 13 :: b) = fromUtf8Lossy a ++ '\r' :: fromUtf8Lossy b :=
  fromUtf8Lossy_append (by decide) a b

/--
A line that the server has read from as far as a carriage return: nothing, or bytes
that end in one.
-/
structure Pending (pre : Bytes) : Prop where
  noLf : (10 : UInt8) ∉ pre
  cr : pre = [] ∨ ∃ q, pre = q ++ [13]

theorem Pending.next {pre line : Bytes} (h : Pending pre) (hline : NoEol line) :
    Pending (pre ++ (line ++ [13])) := by
  refine ⟨?_, .inr ⟨pre ++ line, by simp⟩⟩
  have := hline.notMem (c := 10) (by decide)
  simp [h.noLf, this]

/--
The text of a line that ends in a line feed of its own does not end in a carriage
return, so the server takes nothing off it.
-/
theorem Pending.getLast_ne {pre line : Bytes} (h : Pending pre) (hline : NoEol line)
    (hne : pre ≠ [] → line ≠ []) : (fromUtf8Lossy (pre ++ line)).getLast? ≠ some '\r' := by
  have hcr : '\r' ∉ fromUtf8Lossy line := cr_notMem_fromUtf8Lossy (hline.notMem (by decide))
  intro hlast
  rcases h.cr with rfl | ⟨q, rfl⟩
  · exact hcr (List.mem_of_getLast? hlast)
  · have hline' : fromUtf8Lossy line ≠ [] := fromUtf8Lossy_ne_nil (hne (by simp))
    rw [List.append_assoc, List.singleton_append, fromUtf8Lossy_cr, ← List.singleton_append,
      ← List.append_assoc, List.getLast?_append_of_ne_nil _ hline'] at hlast
    exact hcr (List.mem_of_getLast? hlast)

/-- The lines the server sees. -/
def seenTexts (view : List HeadLine) : List Str :=
  (view.filter HeadLine.seen).map HeadLine.serverText

/-- The lines the server sees when a line is pending. -/
def pendingTexts (pre : Bytes) : List (Bytes × LineEnd) → List Str
  | [] => if pre = [] then [] else [fromUtf8Lossy pre]
  | (line, e) :: rest =>
      fromUtf8Lossy (pre ++ (line ++ tailOf e rest)) :: seenTexts (viewFrom e.feeds rest)

theorem seenTexts_true (lines : List (Bytes × LineEnd)) :
    seenTexts (viewFrom true lines) = pendingTexts [] lines := by
  cases lines <;> rfl

/-- A carriage return goes on with the line. -/
theorem pendingTexts_cr (pre line : Bytes) (rest : List (Bytes × LineEnd)) :
    pendingTexts (pre ++ (line ++ [13])) rest = pendingTexts pre ((line, .cr) :: rest) := by
  cases rest with
  | nil => simp [pendingTexts, tailOf, viewFrom, seenTexts]
  | cons l rest => simp [pendingTexts, tailOf, viewFrom, seenTexts, LineEnd.feeds]

theorem lines_pending {lines' : List (Bytes × LineEnd)} : ∀ (pre : Bytes), Pending pre →
    Proper (pre ≠ []) lines' →
      lines (fromUtf8Lossy (pre ++ joinLines lines')) = pendingTexts pre lines' := by
  induction lines' with
  | nil =>
      intro pre hpre _
      rw [joinLines, List.flatMap_nil, List.append_nil,
        lines_last (lf_notMem_fromUtf8Lossy hpre.noLf), pendingTexts]
      by_cases hnil : pre = []
      · subst hnil
        rfl
      · rw [if_neg (fromUtf8Lossy_ne_nil hnil), if_neg hnil]
  | cons l rest ih =>
      intro pre hpre hproper
      obtain ⟨line, e⟩ := l
      obtain ⟨hline, hlf, hrest⟩ := hproper
      have hnoLf : '\n' ∉ fromUtf8Lossy (pre ++ line) := by
        refine lf_notMem_fromUtf8Lossy ?_
        have := hline.notMem (c := 10) (by decide)
        simp [hpre.noLf, this]
      rw [joinLines_cons]
      cases e with
      | lf =>
          have hne : pre ≠ [] → line ≠ [] := by
            intro hpre' hnil
            exact hlf (by simpa using hpre') hnil rfl
          have hih := ih [] ⟨by simp, .inl rfl⟩ hrest
          rw [← List.append_assoc, LineEnd.bytes, List.singleton_append, fromUtf8Lossy_lf,
            lines_lf hnoLf (hpre.getLast_ne hline hne), pendingTexts, tailOf, List.append_nil,
            LineEnd.feeds, seenTexts_true, ← hih, List.nil_append]
      | crlf =>
          have hih := ih [] ⟨by simp, .inl rfl⟩ hrest
          have hbytes : LineEnd.crlf.bytes ++ joinLines rest = 13 :: ([] ++ 10 :: joinLines rest) :=
            rfl
          rw [← List.append_assoc, hbytes, fromUtf8Lossy_cr, fromUtf8Lossy_lf]
          show lines (_ ++ '\r' :: '\n' :: _) = _
          rw [lines_crlf hnoLf, pendingTexts, tailOf, List.append_nil, LineEnd.feeds,
            seenTexts_true, ← hih, List.nil_append]
      | cr =>
          have hproper' : Proper (pre ++ (line ++ [13]) ≠ []) rest := by simpa using hrest
          rw [← pendingTexts_cr, ← ih _ (hpre.next hline) hproper', LineEnd.bytes]
          simp only [List.append_assoc]

theorem findBytes_lf_none {bs : Bytes} (h : (10 : UInt8) ∉ bs) : findBytes [10] bs = none := by
  induction bs with
  | nil => rfl
  | cons b bs ih =>
      have hne : (10 : UInt8) ≠ b := fun heq => h (by simp [heq])
      rw [findBytes, ih fun hmem => h (List.mem_cons_of_mem b hmem)]
      simp [List.isPrefixOf, hne]

theorem findBytes_lf {a : Bytes} (h : (10 : UInt8) ∉ a) (b : Bytes) :
    findBytes [10] (a ++ 10 :: b) = some a.length := by
  induction a with
  | nil => simp [findBytes, List.isPrefixOf]
  | cons x a ih =>
      have hne : (10 : UInt8) ≠ x := fun heq => h (by simp [heq])
      rw [List.cons_append, findBytes, ih fun hmem => h (List.mem_cons_of_mem x hmem)]
      simp [List.isPrefixOf, hne]

theorem headerBytes_none {bs : Bytes} (h : (10 : UInt8) ∉ bs) : headerBytes bs = bs := by
  rw [headerBytes, findBytes_lf_none h]

theorem headerBytes_lf {a : Bytes} (h : (10 : UInt8) ∉ a) (b : Bytes) :
    headerBytes (a ++ 10 :: b) = b := by
  rw [headerBytes, findBytes_lf h]
  show (a ++ 10 :: b).drop (a.length + 1) = b
  rw [← List.singleton_append, ← List.append_assoc, List.drop_left' (by simp)]

theorem lf_notMem_joinLines {lines : List (Bytes × LineEnd)} :
    ∀ {afterCr : Bool}, Proper afterCr lines → lines.any (fun l => l.2.feeds) = false →
      (10 : UInt8) ∉ joinLines lines := by
  induction lines with
  | nil => simp [joinLines]
  | cons l rest ih =>
      intro afterCr hproper hany
      obtain ⟨line, e⟩ := l
      obtain ⟨hline, -, hrest⟩ := hproper
      rw [List.any_cons, Bool.or_eq_false_iff] at hany
      have hlf := hline.notMem (c := 10) (by decide)
      cases e with
      | cr => simp [joinLines_cons, LineEnd.bytes, hlf, ih hrest hany.2]
      | lf => cases hany.1
      | crlf => cases hany.1

/-- Up to the first line feed nothing is seen. -/
theorem lines_afterLf {lines' : List (Bytes × LineEnd)} :
    ∀ {afterCr : Bool} (pre : Bytes), (10 : UInt8) ∉ pre → Proper afterCr lines' →
      lines'.any (fun l => l.2.feeds) = true →
        lines (fromUtf8Lossy (headerBytes (pre ++ joinLines lines')))
          = seenTexts (viewFrom false lines') := by
  induction lines' with
  | nil => intro _ _ _ _ hany; simp at hany
  | cons l rest ih =>
      intro afterCr pre hpre hproper hany
      obtain ⟨line, e⟩ := l
      obtain ⟨hline, -, hrest⟩ := hproper
      have hlf : (10 : UInt8) ∉ pre ++ line := by
        simp [hpre, hline.notMem (c := 10) (by decide)]
      have hview : seenTexts (viewFrom false ((line, e) :: rest))
          = seenTexts (viewFrom e.feeds rest) := rfl
      have hseen : Proper false rest →
          lines (fromUtf8Lossy (joinLines rest)) = seenTexts (viewFrom true rest) := by
        intro hrest
        rw [seenTexts_true, ← lines_pending [] ⟨by simp, .inl rfl⟩ hrest, List.nil_append]
      rw [hview, joinLines_cons, ← List.append_assoc]
      cases e with
      | lf =>
          rw [LineEnd.bytes, List.singleton_append, headerBytes_lf hlf]
          exact hseen hrest
      | crlf =>
          have hsplit : pre ++ line ++ (LineEnd.crlf.bytes ++ joinLines rest)
              = (pre ++ line ++ [13]) ++ 10 :: joinLines rest := by simp [LineEnd.bytes]
          rw [hsplit, headerBytes_lf (by simpa using hlf)]
          exact hseen hrest
      | cr =>
          have hany' : rest.any (fun l => l.2.feeds) = true := by
            simpa [LineEnd.feeds] using hany
          rw [LineEnd.bytes, ← List.append_assoc]
          exact ih _ (by simpa using hlf) hrest hany'

/--
**The lines the server reads** are the seen lines of the head, each with the bare
carriage return and what follows it.

This is the whole of what the server knows of a head: everything it makes of a
header is a function of these texts.
-/
theorem lines_headerBytes {head : Bytes} (h : EndsLine head) :
    lines (fromUtf8Lossy (headerBytes head)) = seenTexts (headView head) := by
  have hjoin := joinLines_cutLines head h
  have hproper := (cutLines_proper head).1
  unfold headView
  cases hany : (cutLines head).any fun l => l.2.feeds with
  | true =>
      have := lines_afterLf [] (by simp) hproper hany
      rwa [List.nil_append, hjoin] at this
  | false =>
      have hno : (10 : UInt8) ∉ head := by
        rw [← hjoin]
        exact lf_notMem_joinLines hproper hany
      have := lines_pending [] ⟨by simp, .inl rfl⟩ hproper
      rw [List.nil_append, hjoin] at this
      rw [headerBytes_none hno, this, Bool.not_false, seenTexts_true]

/-! ### Looking a header up

The name is compared in lower case.  Lower case is the library's, for which a Kelvin
sign is the letter k, and so a line may be read as a header it is not.
-/

/-- The headers the server looks at. -/
def headerNames : List String :=
  ["Host", "If-Modified-Since", "Range", "Content-Type", "Content-Length", "User-Agent", "Referer",
    "Accept", "Accept-Encoding", "Accept-Language", "Cookie", "Authorization", "X-Forwarded-For"]

/-- The text a header line starts with. -/
def searchText (name : String) : Str := name.toList ++ [':']

/-- The line starts with the name, ASCII case aside, and a colon. -/
def named (name : String) (line : Bytes) : Bool :=
  eqIgnoreAsciiCase ((line.take (searchText name).length).map byteChar) (searchText name)

/-- The value of the first line with the name. -/
def headerValue (lines : List Bytes) (name : String) : Option Str :=
  (lines.find? (named name)).map fun line =>
    trim (fromUtf8Lossy (line.drop (searchText name).length))

/-- The header lines of a request of `n` bytes, as the machine delimits them. -/
def headerLines (s : Bytes) (n : Nat) : List Bytes := ((cutLines (s.take n)).drop 1).map Prod.fst

/--
The line starts with the name and a colon in the eyes of the server, to which a
Kelvin sign is the letter k.
-/
def reads (name : String) (line : Bytes) : Bool :=
  (asciiLower (searchText name)).isPrefixOf ((fromUtf8Lossy line).map foldChar)

/-- What the server takes for the value of the line. -/
def HeadLine.serverValue (l : HeadLine) (name : String) : Str :=
  trim (dropBytes (byteLen (searchText name)) l.serverText)

/-- What all names looked up have in common. -/
structure PlainName (name : String) : Prop where
  ascii : ∀ c ∈ searchText name, isAscii c = true
  lowered : ∀ c ∈ asciiLower (searchText name), isAscii c = true
  last : (asciiLower (searchText name)).getLast? ≠ some 'i'
  noCr : '\r' ∉ asciiLower (searchText name)
  byteLen : byteLen (searchText name) = (searchText name).length

theorem plainName_of_mem {name : String} (h : name ∈ headerNames) : PlainName name := by
  have hall : ∀ name ∈ headerNames, (searchText name).all isAscii = true ∧
      (asciiLower (searchText name)).all isAscii = true ∧
      (asciiLower (searchText name)).getLast? ≠ some 'i' ∧
      '\r' ∉ asciiLower (searchText name) ∧
      Text.byteLen (searchText name) = (searchText name).length := by decide
  obtain ⟨hascii, hlowered, hlast, hcr, hlen⟩ := hall name h
  exact ⟨List.all_eq_true.mp hascii, List.all_eq_true.mp hlowered, hlast, hcr, hlen⟩

theorem isPrefixOf_append_of_notMem {p : Str} {c : Char} (h : c ∉ p) (s t : Str) :
    p.isPrefixOf (s ++ c :: t) = p.isPrefixOf s := by
  induction p generalizing s with
  | nil => simp
  | cons a p ih =>
      have hne : a ≠ c := fun heq => h (by simp [heq])
      have hp : c ∉ p := fun hmem => h (List.mem_cons_of_mem a hmem)
      cases s with
      | nil => simp [List.isPrefixOf, hne]
      | cons b s => rw [List.cons_append, List.isPrefixOf_cons_cons, List.isPrefixOf_cons_cons, ih hp]

/-- The rest of a line starts with a carriage return. -/
theorem tailOf_cases (e : LineEnd) (rest : List (Bytes × LineEnd)) :
    tailOf e rest = [] ∨ ∃ t, tailOf e rest = 13 :: t := by
  cases e with
  | lf => exact .inl (by rw [tailOf])
  | crlf => exact .inl (by rw [tailOf])
  | cr =>
      cases rest with
      | nil => exact .inr ⟨[], rfl⟩
      | cons l rest => exact .inr ⟨_, rfl⟩

theorem viewFrom_tail {l : HeadLine} : ∀ {lines : List (Bytes × LineEnd)} {seen : Bool},
    l ∈ viewFrom seen lines → l.tail = [] ∨ ∃ t, l.tail = 13 :: t := by
  intro lines
  induction lines with
  | nil => intro seen h; cases h
  | cons x rest ih =>
      intro seen h
      rcases List.mem_cons.mp h with rfl | h
      · exact tailOf_cases _ _
      · exact ih h

/-- The name is looked for before the first carriage return only. -/
theorem isPrefixOf_serverText {name : String} (hname : PlainName name) {l : HeadLine}
    (htail : l.tail = [] ∨ ∃ t, l.tail = 13 :: t) :
    (asciiLower (searchText name)).isPrefixOf (l.serverText.map foldChar) = reads name l.text := by
  unfold HeadLine.serverText reads
  rcases htail with htail | ⟨t, htail⟩
  · rw [htail, List.append_nil]
  · have hcr : foldChar '\r' = '\r' := by decide
    rw [htail, fromUtf8Lossy_cr, List.map_append, List.map_cons, hcr,
      isPrefixOf_append_of_notMem hname.noCr]

/-- The server's answer, over the lines of the head. -/
theorem extractHeader_eq {pf : Platform} (hlower : Lowercases pf.toLowercase) {name : String}
    (hname : PlainName name) {head : Bytes} (hend : EndsLine head) :
    extractHeader pf (headerBytes head) name
      = ((headView head).find? fun l => l.seen && reads name l.text).map
          fun l => l.serverValue name := by
  show ((lines (fromUtf8Lossy (headerBytes head))).find? fun line =>
    (pf.toLowercase (searchText name)).isPrefixOf (pf.toLowercase line)).map (fun line =>
      trim (dropBytes (byteLen (searchText name)) line)) = _
  rw [lines_headerBytes hend, seenTexts, List.find?_map, List.find?_filter, Option.map_map]
  congr 1
  refine List.find?_congr fun l hl => ?_
  have hreads : (pf.toLowercase (searchText name)).isPrefixOf (pf.toLowercase l.serverText)
      = reads name l.text := by
    rw [hlower.of_ascii hname.ascii, hlower.isPrefixOf hname.lowered hname.last,
      isPrefixOf_serverText hname (viewFrom_tail hl)]
  simp [hreads]

/-! ### When the header is the one on the line

Either nobody reads any line as the header, or the first line with the name is the
first that the server reads as one, and what stands between it and the next line
feed does not change its value.  What is left is coincidence.
-/

theorem named_ascii {name : String} (hname : PlainName name) {line : Bytes}
    (h : named name line = true) :
    (∀ b ∈ line.take (searchText name).length, b < 0x80) ∧
      (searchText name).length ≤ line.length := by
  have heq : asciiLower ((line.take (searchText name).length).map byteChar)
      = asciiLower (searchText name) := by simpa [named, eqIgnoreAsciiCase] using h
  constructor
  · intro b hb
    have hmem : (byteChar b).toLower ∈ asciiLower (searchText name) := by
      rw [← heq]
      exact List.mem_map_of_mem (List.mem_map_of_mem hb)
    have hlow := hname.lowered _ hmem
    by_contra hge
    have hnot : isAscii (byteChar b) = false := by
      simp only [isAscii, decide_eq_false_iff_not, not_lt, byteChar_toNat]
      have : ¬ b.toNat < 128 := hge
      omega
    rw [toLower_of_not_ascii hnot, hnot] at hlow
    cases hlow
  · have hlen := congrArg List.length heq
    simp only [asciiLower, List.length_map, List.length_take] at hlen
    omega

theorem dropBytes_ascii {n : Nat} {as : Str} (hn : as.length = n)
    (has : ∀ c ∈ as, isAscii c = true) (s : Str) : dropBytes n (as ++ s) = s := by
  subst hn
  induction as with
  | nil => rw [List.length_nil, dropBytes, List.nil_append]
  | cons a as ih =>
      have hsize : a.utf8Size = 1 := by
        have ha := has a List.mem_cons_self
        simp only [isAscii, decide_eq_true_eq] at ha
        exact Char.utf8Size_eq_one_iff.mpr (by
          have : a.val.toNat ≤ 127 := by
            have : a.val.toNat = a.toNat := rfl
            omega
          exact this)
      rw [List.length_cons, List.cons_append, dropBytes, hsize, Nat.add_sub_cancel]
      exact ih fun c hc => has c (List.mem_cons_of_mem a hc)

/-- On a line with the name, the server cuts off the name where the machine does. -/
theorem dropBytes_serverText {name : String} (hname : PlainName name) {l : HeadLine}
    (h : named name l.text = true) :
    dropBytes (byteLen (searchText name)) l.serverText
      = fromUtf8Lossy (l.text.drop (searchText name).length ++ l.tail) := by
  obtain ⟨hascii, hlen⟩ := named_ascii hname h
  have hsplit : l.text ++ l.tail = l.text.take (searchText name).length ++
      (l.text.drop (searchText name).length ++ l.tail) := by
    rw [← List.append_assoc, List.take_append_drop]
  have hcount : ((l.text.take (searchText name).length).map byteChar).length
      = (searchText name).length := by
    rw [List.length_map, List.length_take, Nat.min_eq_left hlen]
  unfold HeadLine.serverText
  rw [hsplit, fromUtf8Lossy_ascii_append hascii, hname.byteLen]
  refine dropBytes_ascii hcount ?_ _
  intro c hc
  obtain ⟨b, hb, rfl⟩ := List.mem_map.mp hc
  have : b.toNat < 128 := hascii b hb
  simpa [isAscii, byteChar_toNat] using this

/--
The server's value of a line with the name is the value, unless something follows a
bare carriage return.
-/
theorem serverValue_eq_iff {name : String} (hname : PlainName name) {l : HeadLine}
    (htail : l.tail = [] ∨ ∃ t, l.tail = 13 :: t) (h : named name l.text = true) :
    l.serverValue name = trim (fromUtf8Lossy (l.text.drop (searchText name).length)) ↔
      ∀ c ∈ fromUtf8Lossy l.tail, isWhitespace c = true := by
  unfold HeadLine.serverValue
  rw [dropBytes_serverText hname h]
  rcases htail with htail | ⟨t, htail⟩
  · rw [htail, List.append_nil]
    simp [fromUtf8Lossy_nil]
  · rw [htail, fromUtf8Lossy_cr, trim_append_iff (by decide), fromUtf8Lossy_cons (by decide)]
    simp only [List.mem_cons, forall_eq_or_imp]
    exact ⟨fun hall => ⟨by decide, hall⟩, fun hall => hall.2⟩

/--
What a head has to be like for the server to find the header `name` where it is: no line
has the name, in the eyes of the machine or of the server; or the first line with the
name is also the first the server sees that reads like it, and only white space follows
it up to the next line feed; or the server takes another line, with the same value.
-/
def HeaderInView (name : String) (view : List HeadLine) : Prop :=
  match (view.drop 1).find? fun l => named name l.text,
    view.find? fun l => l.seen && reads name l.text with
  | none, none => True
  | some l, some m =>
      if l = m then ∀ c ∈ fromUtf8Lossy l.tail, isWhitespace c = true
      else m.serverValue name = trim (fromUtf8Lossy (l.text.drop (searchText name).length))
  | _, _ => False

theorem viewFrom_text (seen : Bool) (lines : List (Bytes × LineEnd)) :
    (viewFrom seen lines).map HeadLine.text = lines.map Prod.fst := by
  induction lines generalizing seen with
  | nil => rfl
  | cons l rest ih => simp [viewFrom, ih]

/-- The header lines are the lines of the view, the request line aside. -/
theorem headerValue_eq (s : Bytes) (n : Nat) (name : String) :
    headerValue (headerLines s n) name
      = (((headView (s.take n)).drop 1).find? fun l => named name l.text).map fun l =>
          trim (fromUtf8Lossy (l.text.drop (searchText name).length)) := by
  have hlines : headerLines s n = ((headView (s.take n)).drop 1).map HeadLine.text := by
    rw [headerLines, List.map_drop, ← viewFrom_text, ← List.map_drop]
    rfl
  rw [hlines, headerValue, List.find?_map, Option.map_map]
  rfl

/-- A complete head ends with the end of a line. -/
theorem Completes.endsLine {s : Bytes} {n : Nat} (h : Completes s n) : EndsLine (s.take n) := by
  cases h with
  | @twoWords p rest e hp he hs =>
      have htake : s.take (p.length + 1) = p ++ [e] := by
        rw [hs, ← List.singleton_append (x := e), ← List.append_assoc, List.take_left' (by simp)]
      intro c hc
      rw [htake, List.getLast?_concat, Option.some.injEq] at hc
      rwa [← hc]
  | @threeWords p t rest hp ht hs =>
      have htake : s.take (p.length + t.length) = p ++ t := by
        rw [hs, List.take_left' (by simp)]
      intro c hc
      have hsuffix : ∀ {u : Bytes}, u <:+ t → u ≠ [] → u.getLast? = some c := by
        rintro u ⟨v, rfl⟩ hne
        rwa [htake, ← List.append_assoc, List.getLast?_append_of_ne_nil _ hne] at hc
      rcases ht.ends with h | h | h <;>
      · have := hsuffix h (by simp)
        simp only [List.getLast?_cons, List.getLast?_nil, Option.getD_none, Option.getD_some,
          Option.some.injEq] at this
        rw [← this]
        decide

/--
**The server reads the header lines of the machine** exactly where they are in its
view: `extract_header` gives the trimmed value of the first header line with the
name, or nothing if there is none.  The lines of the machine are those `bufgets`
comes to, the first one aside, which is the request line.

The names are those the source asks for, and of the library's lower case only the
documented part is used.
-/
theorem extract_header_iff (pf : Platform) (hlower : Lowercases pf.toLowercase) (s : Bytes)
    (n : Nat) (state : ParseState) (h : gotRequest s 0 .firstWord = (.gotRequest, n, state))
    (name : String) (hname : name ∈ headerNames) :
    (extractHeader pf (headerBytes (s.take n)) name = headerValue (headerLines s n) name ↔
      HeaderInView name (headView (s.take n))) ∧
    ∃ lines, ReadsLines (s.take n) lines ∧ headerLines s n = lines.drop 1 := by
  refine ⟨?_, _, readsLines_cutLines (s.take n), List.map_drop⟩
  have hplain := plainName_of_mem hname
  rw [extractHeader_eq hlower hplain (completes_of_gotRequest h).endsLine, headerValue_eq]
  unfold HeaderInView
  cases hfsm : ((headView (s.take n)).drop 1).find? fun l => named name l.text with
  | none =>
      cases hsrv : (headView (s.take n)).find? fun l => l.seen && reads name l.text with
      | none => simp
      | some m => simp
  | some l =>
      cases hsrv : (headView (s.take n)).find? fun l => l.seen && reads name l.text with
      | none => simp
      | some m =>
          simp only [Option.map_some, Option.some.injEq]
          split
          · rename_i hlm
            subst hlm
            have hmem : l ∈ headView (s.take n) := List.mem_of_find?_eq_some hsrv
            have hnamed : named name l.text = true := by simpa using List.find?_some hfsm
            exact serverValue_eq_iff hplain (viewFrom_tail hmem) hnamed
          · exact Iff.rfl

/-- A host on a line of its own. -/
def hostRequest : Bytes := asBytes "GET / HTTP/1.0\r\nhOST: x\r\n\r\n".toList

/-- A bare carriage return in front of the host. -/
def bareCrRequest : Bytes := asBytes "GET / HTTP/1.0\r\nA: b\rHost: x\r\n\r\n".toList

/-- A platform that lower-cases the text of requests the way the library does. -/
def loweringPlatform : Platform := { Platform.epoch with toLowercase := lowerText }

theorem extract_header_host :
    gotRequest hostRequest 0 .firstWord = (.gotRequest, 27, .gotRequest) ∧
      extractHeader loweringPlatform (headerBytes (hostRequest.take 27)) "Host"
        = headerValue (headerLines hostRequest 27) "Host" ∧
      headerValue (headerLines hostRequest 27) "Host" = some "x".toList := by
  refine ⟨by decide +kernel, (extract_header_iff loweringPlatform lowercases_lowerText hostRequest
    27 .gotRequest (by decide +kernel) "Host" (by decide)).1.mpr ?_, by decide +kernel⟩
  have hfsm : ((headView (hostRequest.take 27)).drop 1).find? (fun l => named "Host" l.text)
      = some ⟨asBytes "hOST: x".toList, true, []⟩ := by decide +kernel
  have hsrv : (headView (hostRequest.take 27)).find? (fun l => l.seen && reads "Host" l.text)
      = some ⟨asBytes "hOST: x".toList, true, []⟩ := by decide +kernel
  unfold HeaderInView
  rw [hfsm, hsrv]
  simp [fromUtf8Lossy_nil]

/--
The machine sees a host, and the server sees none: it takes it for a part of the
header before.
-/
theorem bare_cr_hides_host :
    gotRequest bareCrRequest 0 .firstWord = (.gotRequest, 32, .gotRequest) ∧
      headerValue (headerLines bareCrRequest 32) "Host" = some "x".toList ∧
      extractHeader loweringPlatform (headerBytes (bareCrRequest.take 32)) "Host" = none := by
  decide +kernel

end Thttpd
