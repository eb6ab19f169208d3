/-
Lower case beyond ASCII.

`str::to_lowercase` maps each character to one or more, and how it maps a sigma depends
on the characters around it.  A program that compares lower-cased text with an ASCII
word only depends on the characters whose lower case starts in ASCII, and besides the
ASCII letters there are two: the Kelvin sign, and the capital I with a dot, which keeps
its dot as a character of its own.
-/
import Thttpd.Lib.Text
import Mathlib.Data.List.Forall2

namespace Text

/-- A character of one byte. -/
def isAscii (c : Char) : Bool := c.toNat < 128

/-- The sign for kelvin, whose lower case is the letter. -/
def kelvinSign : Char := Char.ofNat 0x212A

/-- The capital I with a dot above. -/
def dottedI : Char := Char.ofNat 0x130

/-- The dot it keeps. -/
def combiningDot : Char := Char.ofNat 0x307

/-- What a character may become in lower case. -/
inductive LowersTo : Char → Str → Prop
  | ascii {c : Char} (h : isAscii c = true) : LowersTo c [c.toLower]
  | kelvin : LowersTo kelvinSign ['k']
  | dotted : LowersTo dottedI ['i', combiningDot]
  | other {c d : Char} {rest : Str} (hc : isAscii c = false) (hk : c ≠ kelvinSign)
      (hd : isAscii d = false) : LowersTo c (d :: rest)

/-- `lower` maps text to lower case, character by character. -/
def Lowercases (lower : Str → Str) : Prop :=
  ∀ s, ∃ parts, List.Forall₂ LowersTo s parts ∧ lower s = parts.flatten

/-- Lower case as far as ASCII text can tell. -/
def foldChar (c : Char) : Char := if c = kelvinSign then 'k' else c.toLower

/-- The code point of a letter in lower case. -/
theorem toLower_toNat (c : Char) :
    c.toLower.toNat = if 65 ≤ c.toNat ∧ c.toNat ≤ 90 then c.toNat + 32 else c.toNat := by
  have hupper : (c.val ≥ 'A'.val ∧ c.val ≤ 'Z'.val) ↔ 65 ≤ c.toNat ∧ c.toNat ≤ 90 := Iff.rfl
  unfold Char.toLower
  split
  · rename_i h
    rw [if_pos (hupper.mp h)]
    have hdiff : ('a'.val - 'A'.val).toNat = 32 := by decide
    show (c.val + ('a'.val - 'A'.val)).toNat = c.val.toNat + 32
    have hle : c.val.toNat ≤ 90 := h.2
    rw [UInt32.toNat_add, hdiff]
    omega
  · rename_i h
    rw [if_neg (mt hupper.mpr h)]

/-- Lower case outside ASCII stays outside. -/
theorem toLower_of_not_ascii {c : Char} (h : isAscii c = false) : c.toLower = c := by
  simp only [isAscii, decide_eq_false_iff_not, not_lt] at h
  apply Char.toNat_inj.mp
  rw [toLower_toNat, if_neg (by omega)]

theorem foldChar_of_ascii {c : Char} (h : isAscii c = true) : foldChar c = c.toLower := by
  have hne : c ≠ kelvinSign := by
    rintro rfl
    revert h
    decide
  exact if_neg hne

theorem foldChar_other {c : Char} (h : isAscii c = false) (hk : c ≠ kelvinSign) :
    isAscii (foldChar c) = false := by
  rw [foldChar, if_neg hk, toLower_of_not_ascii h]
  exact h

/-- ASCII text has one lower case. -/
theorem Lowercases.of_ascii {lower : Str → Str} (hl : Lowercases lower) {s : Str}
    (hs : ∀ c ∈ s, isAscii c = true) : lower s = asciiLower s := by
  obtain ⟨parts, hparts, hlower⟩ := hl s
  rw [hlower]
  clear hlower
  induction hparts with
  | nil => rfl
  | cons hc _ ih =>
      have hascii := hs _ List.mem_cons_self
      have htail := ih fun c h => hs c (List.mem_cons_of_mem _ h)
      cases hc with
      | ascii => simpa [asciiLower] using htail
      | kelvin => exact absurd hascii (by decide)
      | dotted => exact absurd hascii (by decide)
      | other hc => rw [hascii] at hc; cases hc

theorem isPrefixOf_cons_of_ne {a b : Char} (h : a ≠ b) (p s : Str) :
    (a :: p).isPrefixOf (b :: s) = false := by
  rw [List.isPrefixOf_cons_cons, beq_eq_false_iff_ne.mpr h, Bool.false_and]

private theorem flatten_isPrefixOf {s : Str} {parts : List Str}
    (h : List.Forall₂ LowersTo s parts) : ∀ {p : Str}, (∀ c ∈ p, isAscii c = true) →
      p.getLast? ≠ some 'i' → p.isPrefixOf parts.flatten = p.isPrefixOf (s.map foldChar) := by
  induction h with
  | nil => intro p _ _; rfl
  | @cons c part s parts hc _ ih =>
      intro p hp hlast
      cases p with
      | nil => rfl
      | cons a p =>
          have hapart : ∀ {d : Char}, isAscii d = false → a ≠ d := by
            rintro d hd rfl
            rw [hp a List.mem_cons_self] at hd
            cases hd
          have htail : p.isPrefixOf parts.flatten = p.isPrefixOf (s.map foldChar) := by
            cases p with
            | nil => simp
            | cons b p => exact ih (fun c h => hp c (List.mem_cons_of_mem _ h)) (by simpa using hlast)
          rw [List.flatten_cons, List.map_cons]
          cases hc with
          | ascii hc =>
              rw [List.singleton_append, List.isPrefixOf_cons_cons, List.isPrefixOf_cons_cons, htail,
                foldChar_of_ascii hc]
          | kelvin =>
              rw [List.singleton_append, List.isPrefixOf_cons_cons, List.isPrefixOf_cons_cons, htail]
              rfl
          | dotted =>
              -- an i is found, but then the dot stands where the word goes on
              rw [isPrefixOf_cons_of_ne (hapart (by decide))]
              by_cases hi : a = 'i'
              · subst hi
                cases p with
                | nil => exact absurd rfl hlast
                | cons b p =>
                    have hb : b ≠ combiningDot := by
                      rintro rfl
                      exact absurd (hp combiningDot (by simp)) (by decide)
                    rw [List.cons_append, List.isPrefixOf_cons_cons, List.cons_append,
                      isPrefixOf_cons_of_ne hb, Bool.and_false]
              · exact isPrefixOf_cons_of_ne hi _ _
          | other hc hk hd =>
              rw [isPrefixOf_cons_of_ne (hapart (foldChar_other hc hk)), List.cons_append,
                isPrefixOf_cons_of_ne (hapart hd)]

/--
**An ASCII word starts the lower case of a text** where it starts the text with its
letters folded.  A word that ends in i would also be found before a combining dot.
-/
theorem Lowercases.isPrefixOf {lower : Str → Str} (hl : Lowercases lower) {p : Str}
    (hp : ∀ c ∈ p, isAscii c = true) (hlast : p.getLast? ≠ some 'i') (s : Str) :
    p.isPrefixOf (lower s) = p.isPrefixOf (s.map foldChar) := by
  obtain ⟨parts, hparts, hlower⟩ := hl s
  rw [hlower]
  exact flatten_isPrefixOf hparts hp hlast

def lowerChar (c : Char) : Str :=
  if c = kelvinSign then ['k'] else if c = dottedI then ['i', combiningDot] else [c.toLower]

/-- Lower case of the characters an ASCII word can meet, every other left as it is. -/
def lowerText (s : Str) : Str := s.flatMap lowerChar

theorem lowersTo_lowerChar (c : Char) : LowersTo c (lowerChar c) := by
  unfold lowerChar
  split
  · rename_i h
    rw [h]
    exact .kelvin
  · rename_i hk
    split
    · rename_i h
      rw [h]
      exact .dotted
    · cases hc : isAscii c with
      | true => exact .ascii hc
      | false =>
          rw [toLower_of_not_ascii hc]
          exact .other hc hk hc

theorem lowercases_lowerText : Lowercases lowerText := by
  intro s
  refine ⟨s.map lowerChar, ?_, List.flatMap_def⟩
  rw [List.forall₂_map_right_iff]
  exact List.forall₂_same.mpr fun c _ => lowersTo_lowerChar c

end Text
