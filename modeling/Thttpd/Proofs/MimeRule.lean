/-
The legacy rule for content types.

A file name's type is that of its rightmost extension with a row in the type table, and
its encodings are those of the extensions after that one, in the order they were applied,
the case of a letter making no difference to either table.  The C function reads the name
from its end, searches the one table from its start and the other, which is sorted, by
halves, and lists what it gathered backwards; where no extension is in both tables and
its array does not overflow, that is the rule (`legacy_figures_rule`).

The rule is written down first, over any two tables and any list of extensions, and
makes no mention of a search, of a case, of an array.  What follows takes the C
function to it in three steps: the comparison of one extension with one row, the two
searches, and the walk from the end of the name.
-/
import Thttpd.Http.Mime
import Thttpd.Legacy.Mime
import Thttpd.Lib.Split
import Mathlib.Data.List.DropRight
import Mathlib.Data.List.Lex

namespace Thttpd

open Text Fs

/-! ### The rule

Extensions are counted from the left, as they stand.  The name in front of the first
dot is none of them.
-/

/-- What stands after each dot of a name. -/
def extensions (name : Str) : List Str := (name.splitOn '.').tail

/-- What a table has for an extension, in whatever case it is. -/
def anyCase (table : List (String × String)) (ext : Str) : Option Str :=
  (table.find? fun row => eqIgnoreAsciiCase row.1.toList ext).map fun row => row.2.toList

/-- The rightmost type. -/
def rightmostType (typeOf : Str → Option Str) (exts : List Str) : Option Str :=
  exts.reverse.findSome? typeOf

/-- The extensions to the right of the rightmost one with a type. -/
def afterType (typeOf : Str → Option Str) (exts : List Str) : List Str :=
  exts.rtakeWhile fun ext => (typeOf ext).isNone

/-- Their encodings, from left to right. -/
def encodingsAfter (typeOf encodingOf : Str → Option Str) (exts : List Str) : List Str :=
  (afterType typeOf exts).filterMap encodingOf

/-- The type of a name that tells nothing. -/
def octetStream : Str := "application/octet-stream".toList

/-- Several encodings in one header field. -/
def joinEncodings (encodings : List Str) : Option Str :=
  if encodings = [] then none else some ([','].intercalate encodings)

/--
**The rule.**  The type of the rightmost extension that has one, and the encodings of
those to its right.
-/
def ruleMime (types encodings : List (String × String)) (name : Str) : MimeInfo where
  mimeType := (rightmostType (anyCase types) (extensions name)).getD octetStream
  encoding := joinEncodings
    (encodingsAfter (anyCase types) (anyCase encodings) (extensions name))

/-! ### Where the type stands

A list of extensions is cut at the rightmost one with a type.  Both the type and the
encodings are read off that cut, so the lemmas about them are two: one for a list
with such an extension and one for a list without.
-/

section

variable {typeOf : Str → Option Str}

/-- A list of extensions has none with a type, or a rightmost one. -/
theorem split_at_type (typeOf : Str → Option Str) (exts : List Str) :
    (∀ ext ∈ exts, typeOf ext = none) ∨
      ∃ left ext right, exts = left ++ ext :: right ∧ (typeOf ext).isSome ∧
        ∀ ext ∈ right, typeOf ext = none := by
  induction exts with
  | nil => exact Or.inl fun ext h => by cases h
  | cons ext exts ih =>
      rcases ih with hnone | ⟨left, typed, right, rfl, htyped, hright⟩
      · cases hext : typeOf ext with
        | none => exact Or.inl (List.forall_mem_cons.mpr ⟨hext, hnone⟩)
        | some t => exact Or.inr ⟨[], ext, exts, rfl, by rw [hext]; rfl, hnone⟩
      · exact Or.inr ⟨ext :: left, typed, right, rfl, htyped, hright⟩

/-- Without one the type is the default. -/
theorem rightmostType_of_none {exts : List Str} (h : ∀ ext ∈ exts, typeOf ext = none) :
    rightmostType typeOf exts = none := by
  rw [rightmostType, List.findSome?_eq_none_iff]
  exact fun ext hext => h ext (List.mem_reverse.mp hext)

theorem rightmostType_append {left right : List Str} (h : ∀ ext ∈ right, typeOf ext = none) :
    rightmostType typeOf (left ++ right) = rightmostType typeOf left := by
  have hright : right.reverse.findSome? typeOf = none := rightmostType_of_none h
  simp [rightmostType, List.findSome?_append, hright]

theorem rightmostType_split {left right : List Str} {ext : Str} (hext : (typeOf ext).isSome)
    (h : ∀ ext ∈ right, typeOf ext = none) :
    rightmostType typeOf (left ++ ext :: right) = typeOf ext := by
  rw [List.append_cons, rightmostType_append h, rightmostType, List.reverse_append,
    List.reverse_singleton, List.singleton_append, List.findSome?_cons_of_isSome hext]

theorem afterType_of_none {exts : List Str} (h : ∀ ext ∈ exts, typeOf ext = none) :
    afterType typeOf exts = exts := by
  rw [afterType, List.rtakeWhile_eq_self_iff]
  intro ext hext
  rw [h ext hext]
  rfl

/-- What is right of the cut is right of the type. -/
theorem afterType_split {left right : List Str} {ext : Str} (hext : (typeOf ext).isSome)
    (h : ∀ ext ∈ right, typeOf ext = none) :
    afterType typeOf (left ++ ext :: right) = right := by
  have hright : ∀ e ∈ right.reverse, (typeOf e).isNone = true := by
    intro e he
    rw [h e (List.mem_reverse.mp he)]
    rfl
  have hstop : (typeOf ext).isNone = false := by
    rw [Option.isNone_eq_false_iff]
    exact hext
  rw [afterType, List.rtakeWhile, List.reverse_append, List.reverse_cons, List.append_assoc,
    List.takeWhile_append_of_pos hright, List.singleton_append, List.takeWhile_cons, hstop]
  simp

theorem find?_of_none {exts : List Str} (h : ∀ ext ∈ exts, typeOf ext = none) :
    (exts.reverse.find? fun ext => (typeOf ext).isSome) = none := by
  rw [List.find?_eq_none]
  intro ext hext
  rw [h ext (List.mem_reverse.mp hext)]
  exact Bool.false_ne_true

theorem find?_split {left right : List Str} {ext : Str} (hext : (typeOf ext).isSome)
    (h : ∀ ext ∈ right, typeOf ext = none) :
    ((left ++ ext :: right).reverse.find? fun ext => (typeOf ext).isSome) = some ext := by
  rw [List.reverse_append, List.reverse_cons, List.append_assoc, List.find?_append,
    find?_of_none h, Option.none_or, List.singleton_append, List.find?_cons, hext]

end

/-! ### One more extension

The walk meets the rightmost extension first, so the rule is taken apart at its
right end: the last extension decides the type if it has one, and else leaves it to
those before it.
-/

/-- A name without a dot has no extension. -/
theorem extensions_of_noDot {name : Str} (h : '.' ∉ name) : extensions name = [] := by
  rw [extensions, List.splitOn_eq_singleton h]
  rfl

theorem extensions_append {name ext : Str} (h : '.' ∉ ext) :
    extensions (name ++ '.' :: ext) = extensions name ++ [ext] := by
  obtain ⟨first, rest, hsplit⟩ := exists_splitOn '.' name
  rw [extensions, splitOn_append_sep, List.splitOn_eq_singleton h, extensions, hsplit]
  rfl

section

variable {typeOf encodingOf : Str → Option Str}

theorem rightmostType_concat (exts : List Str) (ext : Str) :
    rightmostType typeOf (exts ++ [ext]) = (typeOf ext).or (rightmostType typeOf exts) := by
  rw [rightmostType, List.reverse_append, List.reverse_singleton, List.singleton_append,
    List.findSome?_cons]
  cases typeOf ext <;> rfl

/--
The last extension ends the encodings if it has a type, and adds its own behind them
if not.
-/
theorem encodingsAfter_concat (exts : List Str) (ext : Str) :
    encodingsAfter typeOf encodingOf (exts ++ [ext]) =
      if (typeOf ext).isSome then []
      else encodingsAfter typeOf encodingOf exts ++ (encodingOf ext).toList := by
  unfold encodingsAfter afterType
  rw [List.rtakeWhile_concat]
  cases typeOf ext with
  | some t => rfl
  | none =>
      cases hext : encodingOf ext with
      | none => simp [hext]
      | some v => simp [hext]

end

/-! ### The searches

`strncasecmp` compares without case and stops at a length, so what it compares with
is a row and not a part of one (`strncasecmp_spec`).  The table of encodings is
searched from its start; the table of types by halves, which needs it sorted in the
order of that same comparison.
-/

/-- Text as `strncasecmp` compares it. -/
def foldKey (s : Str) : List Nat := s.map fun c => c.toLower.toNat

theorem eqIgnoreAsciiCase_iff {s t : Str} :
    eqIgnoreAsciiCase s t = true ↔ foldKey s = foldKey t := by
  have hkey : ∀ s : Str, foldKey s = (asciiLower s).map Char.toNat := by
    intro s
    rw [foldKey, asciiLower, List.map_map]
    rfl
  rw [eqIgnoreAsciiCase, decide_eq_true_iff, hkey, hkey]
  exact (List.map_injective_iff.mpr fun a b h => Char.toNat_inj.mp h).eq_iff.symm

/-- What is found in a table is the value of a row with that key. -/
theorem anyCase_row {table : List (String × String)} {ext v : Str}
    (h : anyCase table ext = some v) :
    ∃ row ∈ table, foldKey row.1.toList = foldKey ext ∧ row.2.toList = v := by
  obtain ⟨row, hfind, hv⟩ := Option.map_eq_some_iff.mp h
  have hkey : eqIgnoreAsciiCase row.1.toList ext = true := by
    simpa using List.find?_some hfind
  exact ⟨row, List.mem_of_find?_eq_some hfind, eqIgnoreAsciiCase_iff.mp hkey, hv⟩

/-- What the comparison of an extension with a row says. -/
theorem strncasecmp_spec (s t : Str) :
    match Legacy.strncasecmp s t s.length with
    | .lt => List.Lex (· < ·) (foldKey s) (foldKey t)
    | .gt => List.Lex (· < ·) (foldKey t) (foldKey s)
    | .eq => foldKey s <+: foldKey t := by
  induction s generalizing t with
  | nil => exact List.nil_prefix
  | cons a s ih =>
      cases t with
      | nil => exact List.Lex.nil
      | cons b t =>
          rw [List.length_cons, Legacy.strncasecmp]
          by_cases hlt : a.toLower.toNat < b.toLower.toNat
          · rw [if_pos hlt]
            exact List.Lex.rel hlt
          rw [if_neg hlt]
          by_cases hgt : b.toLower.toNat < a.toLower.toNat
          · rw [if_pos hgt]
            exact List.Lex.rel hgt
          rw [if_neg hgt]
          have heq : a.toLower.toNat = b.toLower.toNat := by omega
          have hrest := ih t
          unfold foldKey
          rw [List.map_cons, List.map_cons, heq]
          split at hrest
          · exact List.Lex.cons hrest
          · exact List.Lex.cons hrest
          · exact (List.prefix_cons_inj _).mpr hrest

theorem length_foldKey (s : Str) : (foldKey s).length = s.length := List.length_map ..

/-- The linear search finds what the table has. -/
theorem searchEncodings_eq (encTab : List (String × String)) (ext : Str) :
    (Legacy.searchEncodings encTab ext).map (fun e => e.2.toList) = anyCase encTab ext := by
  have hrow : ∀ row : String × String, (ext.length = row.1.toList.length ∧
      Legacy.strncasecmp ext row.1.toList ext.length = .eq) ↔
        eqIgnoreAsciiCase row.1.toList ext = true := by
    intro row
    have hspec := strncasecmp_spec ext row.1.toList
    rw [eqIgnoreAsciiCase_iff]
    constructor
    · rintro ⟨hlen, hcmp⟩
      rw [hcmp] at hspec
      refine (hspec.eq_of_length ?_).symm
      rw [length_foldKey, length_foldKey, hlen]
    · intro hkey
      have hlen := congrArg List.length hkey
      rw [length_foldKey, length_foldKey] at hlen
      refine ⟨hlen.symm, ?_⟩
      rw [hkey] at hspec
      split at hspec
      · exact absurd hspec (List.lex_irrefl Nat.lt_irrefl _)
      · exact absurd hspec (List.lex_irrefl Nat.lt_irrefl _)
      · assumption
  unfold Legacy.searchEncodings anyCase
  congr 2
  funext row
  rw [Bool.eq_iff_iff, decide_eq_true_iff]
  exact hrow row

/-- A table in the order its search takes it to be in. -/
def Sorted (typTab : List (String × String)) : Prop :=
  typTab.Pairwise fun a b => List.Lex (· < ·) (foldKey a.1.toList) (foldKey b.1.toList)

section

variable {typTab : List (String × String)} (hsorted : Sorted typTab) {ext : Str}

include hsorted

/-- In a sorted table an earlier row is smaller. -/
theorem lex_of_sorted {i j : Nat} {a b : String × String} (hi : typTab[i]? = some a)
    (hj : typTab[j]? = some b) (h : i < j) :
    List.Lex (· < ·) (foldKey a.1.toList) (foldKey b.1.toList) := by
  obtain ⟨hilt, rfl⟩ := List.getElem?_eq_some_iff.mp hi
  obtain ⟨hjlt, rfl⟩ := List.getElem?_eq_some_iff.mp hj
  exact List.pairwise_iff_getElem.mp hsorted i j hilt hjlt h

/-- What comes before a row in the order stands before it. -/
theorem lt_of_lex {i mid : Nat} {row e : String × String} (hi : typTab[i]? = some row)
    (hmid : typTab[mid]? = some e) (hrow : foldKey row.1.toList = foldKey ext)
    (h : List.Lex (· < ·) (foldKey ext) (foldKey e.1.toList)) : i < mid := by
  rw [← hrow] at h
  rcases Nat.lt_trichotomy i mid with hlt | rfl | hgt
  · exact hlt
  · rw [hi] at hmid
    cases hmid
    exact absurd h (List.lex_irrefl Nat.lt_irrefl _)
  · exact absurd (lex_of_sorted hsorted hmid hi hgt)
      (List.lex_asymm (fun {a b} => Nat.lt_asymm) h)

theorem gt_of_lex {i mid : Nat} {row e : String × String} (hi : typTab[i]? = some row)
    (hmid : typTab[mid]? = some e) (hrow : foldKey row.1.toList = foldKey ext)
    (h : List.Lex (· < ·) (foldKey e.1.toList) (foldKey ext)) : mid < i := by
  rw [← hrow] at h
  rcases Nat.lt_trichotomy i mid with hlt | rfl | hgt
  · exact absurd (lex_of_sorted hsorted hi hmid hlt)
      (List.lex_asymm (fun {a b} => Nat.lt_asymm) h)
  · rw [hi] at hmid
    cases hmid
    exact absurd h (List.lex_irrefl Nat.lt_irrefl _)
  · exact hgt

theorem find?_of_sorted {mid : Nat} {e : String × String} (hmid : typTab[mid]? = some e)
    (hkey : foldKey e.1.toList = foldKey ext) :
    (typTab.find? fun row => eqIgnoreAsciiCase row.1.toList ext) = some e := by
  obtain ⟨hlt, hget⟩ := List.getElem?_eq_some_iff.mp hmid
  rw [List.find?_eq_some_iff_getElem]
  refine ⟨eqIgnoreAsciiCase_iff.mpr hkey, mid, hlt, hget, ?_⟩
  intro j hj
  rw [Bool.not_eq_true', Bool.eq_false_iff]
  intro hrow
  have hjth : typTab[j]? = some typTab[j] := List.getElem?_eq_getElem (by omega)
  have hlex := lex_of_sorted hsorted hjth hmid hj
  rw [eqIgnoreAsciiCase_iff.mp hrow, hkey] at hlex
  exact List.lex_irrefl Nat.lt_irrefl _ hlex

/--
**The binary search** finds the row, if it is between its bounds.

Strong induction on the distance of the bounds.  A row that is not the middle one
lies on the side the comparison points to, since the table is sorted.
-/
theorem searchTypes_eq (bot top : Nat) (htop : top ≤ typTab.length)
    (hinside : ∀ i row, typTab[i]? = some row → foldKey row.1.toList = foldKey ext →
      bot ≤ i ∧ i < top) :
    Legacy.searchTypes typTab ext bot top =
      typTab.find? fun row => eqIgnoreAsciiCase row.1.toList ext := by
  induction hn : top - bot using Nat.strong_induction_on generalizing bot top with
  | _ n ih =>
      unfold Legacy.searchTypes
      by_cases hlt : bot < top
      · rw [if_pos hlt]
        have hmid : (top - 1 + bot) / 2 < typTab.length := by omega
        obtain ⟨e, he⟩ : ∃ e, typTab[(top - 1 + bot) / 2]? = some e :=
          ⟨_, List.getElem?_eq_getElem hmid⟩
        simp only [he]
        have hlower (h : List.Lex (· < ·) (foldKey ext) (foldKey e.1.toList)) :
            Legacy.searchTypes typTab ext bot ((top - 1 + bot) / 2) =
              typTab.find? fun row => eqIgnoreAsciiCase row.1.toList ext := by
          refine ih _ ?_ bot _ (by omega) ?_ rfl
          · omega
          · intro i row hi hrow
            exact ⟨(hinside i row hi hrow).1, lt_of_lex hsorted hi he hrow h⟩
        have hupper (h : List.Lex (· < ·) (foldKey e.1.toList) (foldKey ext)) :
            Legacy.searchTypes typTab ext ((top - 1 + bot) / 2 + 1) top =
              typTab.find? fun row => eqIgnoreAsciiCase row.1.toList ext := by
          refine ih _ ?_ _ top htop ?_ rfl
          · omega
          · intro i row hi hrow
            exact ⟨gt_of_lex hsorted hi he hrow h, (hinside i row hi hrow).2⟩
        have hspec := strncasecmp_spec ext e.1.toList
        cases hcmp : Legacy.strncasecmp ext e.1.toList ext.length <;> rw [hcmp] at hspec
        case lt => exact hlower hspec
        case gt => exact hupper hspec
        case eq =>
          obtain ⟨u, hu⟩ := hspec
          have hlen := congrArg List.length hu
          rw [List.length_append, length_foldKey, length_foldKey] at hlen
          by_cases hshort : ext.length < e.1.toList.length
          · rw [if_pos hshort]
            apply hlower
            rw [← hu]
            cases u with
            | nil => simp at hlen; omega
            | cons b u => simpa using List.Lex.append_left (· < ·) (List.Lex.nil (a := b)) (foldKey ext)
          · rw [if_neg hshort, if_neg (by omega)]
            have hnil : u = [] := List.length_eq_zero_iff.mp (by omega)
            rw [hnil, List.append_nil] at hu
            exact (find?_of_sorted hsorted he hu.symm).symm
      · rw [if_neg hlt]
        symm
        rw [List.find?_eq_none]
        intro row hrow hkey
        obtain ⟨i, hi⟩ := List.mem_iff_getElem?.mp hrow
        have := hinside i row hi (eqIgnoreAsciiCase_iff.mp hkey)
        omega

end

/-- Where no two rows are alike the order of the rows makes no difference. -/
theorem anyCase_eq_some_iff {table : List (String × String)}
    (hkeys : table.Pairwise fun a b => foldKey a.1.toList ≠ foldKey b.1.toList) {ext v : Str} :
    anyCase table ext = some v ↔
      ∃ row ∈ table, foldKey row.1.toList = foldKey ext ∧ row.2.toList = v := by
  constructor
  · exact anyCase_row
  · rintro ⟨row, hrow, hkey, rfl⟩
    induction table with
    | nil => cases hrow
    | cons first table ih =>
        obtain ⟨hfirst, hrest⟩ := List.pairwise_cons.mp hkeys
        unfold anyCase
        rcases List.mem_cons.mp hrow with rfl | hrow
        · rw [List.find?_cons, eqIgnoreAsciiCase_iff.mpr hkey]
          rfl
        · have hne : eqIgnoreAsciiCase first.1.toList ext = false := by
            rw [Bool.eq_false_iff, ne_eq, eqIgnoreAsciiCase_iff, ← hkey]
            exact hfirst row hrow
          rw [List.find?_cons, hne]
          exact ih hrest hrow

/-- So a table says the same in any order. -/
theorem anyCase_perm {table table' : List (String × String)} (hperm : table.Perm table')
    (hkeys : table.Pairwise fun a b => foldKey a.1.toList ≠ foldKey b.1.toList) (ext : Str) :
    anyCase table ext = anyCase table' ext := by
  have hkeys' : table'.Pairwise fun a b => foldKey a.1.toList ≠ foldKey b.1.toList :=
    (hperm.pairwise_iff fun h => h.symm).mp hkeys
  apply Option.ext
  intro v
  rw [anyCase_eq_some_iff hkeys, anyCase_eq_some_iff hkeys']
  simp only [hperm.mem_iff]

theorem Sorted.pairwise_ne {typTab : List (String × String)} (h : Sorted typTab) :
    typTab.Pairwise fun a b => foldKey a.1.toList ≠ foldKey b.1.toList := by
  refine h.imp ?_
  intro a b hlex heq
  rw [heq] at hlex
  exact List.lex_irrefl Nat.lt_irrefl _ hlex

/-! ### The walk

The C function walks from the end of the name and stops at the first extension with
a type, which is the rightmost.  What it gathered on the way stands in its array from
right to left, and is written out from the end.
-/

theorem searchTypes_anyCase {typTab : List (String × String)} (hsorted : Sorted typTab)
    (ext : Str) :
    (Legacy.searchTypes typTab ext 0 typTab.length).map (fun e => e.2.toList) =
      anyCase typTab ext := by
  have hinside : ∀ i row, typTab[i]? = some row → foldKey row.1.toList = foldKey ext →
      0 ≤ i ∧ i < typTab.length :=
    fun i _ hi _ => ⟨Nat.zero_le i, (List.getElem?_eq_some_iff.mp hi).1⟩
  rw [searchTypes_eq hsorted 0 typTab.length (Nat.le_refl _) hinside]
  rfl

theorem take_take_append {α : Type} (n : Nat) (l r : List α) :
    (l.take n ++ r).take n = (l ++ r).take n := by
  rcases Nat.le_total l.length n with hle | hle
  · rw [List.take_of_length_le hle]
  · rw [List.take_append_of_le_length hle, List.take_append_of_le_length (by simp; omega),
      List.take_take, Nat.min_self]

/-- An encoding is noted behind the others, while there is room. -/
theorem noteEncoding_eq (encTab : List (String × String)) (ext : Str) {encodings : List Str}
    (hroom : encodings.length ≤ Legacy.maxEncodings) :
    Legacy.noteEncoding encTab ext encodings =
      (encodings ++ (anyCase encTab ext).toList).take Legacy.maxEncodings := by
  rw [← searchEncodings_eq]
  unfold Legacy.noteEncoding
  cases Legacy.searchEncodings encTab ext with
  | none =>
      rw [Option.map_none, Option.toList_none, List.append_nil, List.take_of_length_le hroom]
  | some e =>
      rw [Option.map_some, Option.toList_some]
      by_cases hlt : encodings.length < Legacy.maxEncodings
      · rw [List.take_of_length_le (by rw [List.length_append]; exact hlt)]
        exact if_pos hlt
      · rw [List.take_append_of_le_length (by omega), List.take_of_length_le hroom]
        exact if_neg hlt

section

variable {encTab typTab : List (String × String)} (hsorted : Sorted typTab)
  (hdisjoint : ∀ ext, (anyCase typTab ext).isSome → anyCase encTab ext = none)

include hsorted hdisjoint

/-- The walk gathers the encodings in the reverse of their order, up to its limit. -/
theorem figureFrom_eq (rev ext : Str) (encodings : List Str) (hdot : '.' ∉ ext)
    (hroom : encodings.length ≤ Legacy.maxEncodings) :
    Legacy.figureFrom encTab typTab rev ext encodings =
      ((rightmostType (anyCase typTab) (extensions (rev.reverse ++ ext))).getD octetStream,
        (encodings ++ (encodingsAfter (anyCase typTab) (anyCase encTab)
          (extensions (rev.reverse ++ ext))).reverse).take Legacy.maxEncodings) := by
  induction rev generalizing ext encodings with
  | nil =>
      have hnil : encodingsAfter (anyCase typTab) (anyCase encTab) [] = [] := rfl
      rw [List.reverse_nil, List.nil_append, extensions_of_noDot hdot, hnil, List.reverse_nil,
        List.append_nil, List.take_of_length_le hroom]
      rfl
  | cons c before ih =>
      rw [List.reverse_cons, List.append_assoc, List.singleton_append]
      unfold Legacy.figureFrom
      by_cases hc : c = '.'
      · subst hc
        rw [if_pos rfl, extensions_append hdot, rightmostType_concat, encodingsAfter_concat]
        simp only [noteEncoding_eq encTab ext hroom]
        have htype := searchTypes_anyCase hsorted ext
        cases hsearch : Legacy.searchTypes typTab ext 0 typTab.length with
        | some e =>
            rw [hsearch, Option.map_some] at htype
            have hsome : (anyCase typTab ext).isSome := by rw [← htype]; rfl
            rw [← htype, hdisjoint ext hsome]
            simp [List.take_of_length_le hroom]
        | none =>
            rw [hsearch, Option.map_none] at htype
            simp only [← htype, Option.none_or, Option.isSome_none]
            rw [ih [] _ (by simp) (List.length_take_le _ _), List.append_nil, take_take_append]
            cases anyCase encTab ext <;> simp
      · rw [if_neg hc]
        refine ih (c :: ext) encodings ?_ hroom
        rw [List.mem_cons, not_or]
        exact ⟨fun h => hc h.symm, hdot⟩

end

/-- The text has a comma between two values and nowhere else. -/
theorem encodingsText_eq {encodings : List Str} (hne : ∀ v ∈ encodings, v ≠ []) :
    Legacy.encodingsText encodings.reverse = (joinEncodings encodings).getD [] := by
  have hfold : ∀ (l : List Str) (s : Str), s ≠ [] → l.foldl (fun s val =>
      if s = [] then val else s ++ ',' :: val) s = [','].intercalate (s :: l) := by
    intro l
    induction l with
    | nil =>
        intro s _
        simp
    | cons v l ih =>
        intro s hs
        rw [List.foldl_cons, if_neg hs, ih _ (by simp), List.intercalate_cons_cons]
        cases l with
        | nil => simp
        | cons w l => simp [List.intercalate_cons_cons]
  unfold Legacy.encodingsText joinEncodings
  rw [List.reverse_reverse]
  cases encodings with
  | nil => rfl
  | cons v l =>
      rw [List.foldl_cons, if_pos rfl, hfold l v (hne v List.mem_cons_self),
        if_neg (List.cons_ne_nil v l)]
      rfl

/--
**The C function follows the rule**, its array being large enough.

The C function walks from right to left and lists what it found from left to right,
so the encodings come out in the order they were applied.
-/
theorem legacy_figures_rule {encTab typTab : List (String × String)} (hsorted : Sorted typTab)
    (hdisjoint : ∀ ext, (anyCase typTab ext).isSome → anyCase encTab ext = none)
    (hvalues : ∀ row ∈ encTab, row.2.toList ≠ []) (name : Str)
    (hroom : (encodingsAfter (anyCase typTab) (anyCase encTab) (extensions name)).length ≤
      Legacy.maxEncodings) :
    Legacy.figureMime encTab typTab name =
      ((ruleMime typTab encTab name).mimeType, (ruleMime typTab encTab name).encoding.getD []) := by
  have hne : ∀ v ∈ encodingsAfter (anyCase typTab) (anyCase encTab) (extensions name), v ≠ [] := by
    intro v hv
    obtain ⟨ext, -, hext⟩ := List.mem_filterMap.mp hv
    obtain ⟨row, hrow, -, rfl⟩ := anyCase_row hext
    exact hvalues row hrow
  unfold Legacy.figureMime
  rw [figureFrom_eq hsorted hdisjoint name.reverse [] [] (by simp) (Nat.zero_le _),
    List.reverse_reverse, List.append_nil, List.nil_append, List.take_of_length_le (by simpa)]
  exact Prod.ext rfl (encodingsText_eq hne)

end Thttpd
