/-
The rule for content types.

A file name's type is that of its rightmost extension with a row in the type table, and
its encodings are those of the extensions after that one, in the order they were applied,
the case of a letter making no difference to either table.  `figureMime` reads the
extensions in that direction too, but it compares them as they are spelled, and it lists
the encodings in the order it meets them, from the last to the first.  So it follows the
rule for names spelled as the tables are whose encodings read the same from both ends,
and otherwise only by chance: another extension, further to the left, may make up for the
one it passed over (`figures_rule_iff`).

Both directions of that are needed, since the statement says exactly for which names
the rule is followed.  That the tables of the two spellings find the same rows is the
notion `FindsMore`: one lookup finds whatever the other does, and the same there, so
that reading can be compared extension by extension.
-/
import Thttpd.Http.Mime
import Thttpd.Proofs.MimeRule

namespace Thttpd

open Text Fs

/-- `lookup_encoding`'s rows. -/
def encodingTable : List (String × String) :=
  [("gz", "gzip"), ("bz2", "x-bzip2"), ("Z", "compress")]

/-! ### What the code computes

`walkExtensions` is a recursion with an accumulator.  In closed form it is the
extensions behind the rightmost one with a type, and the rows the encoding table has
for them.
-/

/-- An extension is in one table at most. -/
theorem lookupEncoding_of_type {ext t : Str} (h : lookupType ext = some t) :
    lookupEncoding ext = none := by
  have hall : ∀ row ∈ mimeTable, lookupEncoding row.1.toList = none := by decide
  unfold lookupType at h
  obtain ⟨row, hfind, -⟩ := Option.map_eq_some_iff.mp h
  have hkey : row.1.toList = ext := by simpa using List.find?_some hfind
  have hnone := hall row (List.mem_of_find?_eq_some hfind)
  rwa [hkey] at hnone

theorem walkExtensions_eq (exts encodings : List Str) :
    walkExtensions exts encodings =
      ((exts.findSome? lookupType).getD octetStream,
        encodings ++ (exts.takeWhile fun ext => (lookupType ext).isNone).filterMap
          lookupEncoding) := by
  induction exts generalizing encodings with
  | nil =>
      unfold walkExtensions
      rw [List.takeWhile_nil, List.filterMap_nil, List.append_nil]
      rfl
  | cons ext exts ih =>
      unfold walkExtensions
      cases ht : lookupType ext with
      | some t => simp [ht, lookupEncoding_of_type ht]
      | none =>
          simp only [ih]
          cases he : lookupEncoding ext <;> simp [ht, he]

theorem fileName_of_parse {name : Str} (h : '/' ∉ name) :
    (Path.parse name).fileName =
      if name = [] ∨ name = Path.dot ∨ name = Path.dotdot then none else some name := by
  have hsplit : name.splitOn '/' = [name] := List.splitOn_eq_singleton h
  unfold Path.fileName Path.components Path.parse
  rw [hsplit]
  by_cases hnil : name = []
  · simp [hnil]
  by_cases hdot : name = Path.dot
  · simp [hdot, Path.dot]
  by_cases hdotdot : name = Path.dotdot
  · simp [hdotdot, Path.dotdot, Path.dot]
  · simp [hnil, hdot, hdotdot]

/--
**What `figure_mime` finds**: the type and the encodings by the letter of the
tables, the encodings from right to left.

A name with a slash would be a path, whose last part the code takes; the claim is
about names.
-/
theorem figureMime_eq {name : Str} (h : '/' ∉ name) :
    figureMime (Path.parse name) =
      ⟨(rightmostType lookupType (extensions name)).getD octetStream,
        joinEncodings
          (encodingsAfter lookupType lookupEncoding (extensions name)).reverse⟩ := by
  unfold figureMime
  rw [fileName_of_parse h]
  split
  · rename_i hnone
    split at hnone
    · rename_i hspecial
      rcases hspecial with rfl | rfl | rfl <;> decide
    · cases hnone
  · rename_i name' hsome
    split at hsome
    · cases hsome
    cases hsome
    simp only [walkExtensions_eq, List.nil_append, rightmostType, encodingsAfter, afterType,
      List.rtakeWhile, extensions, joinEncodings, List.filterMap_reverse, List.reverse_reverse]

/-! ### Spelling

The lookup by letter finds no more than the lookup in any case.  So a list of
extensions has as many encodings either way exactly when each of them is spelled as
its row, and then the encodings are the same ones.
-/

/--
One table finds whatever another finds, and the same there.  The tables are functions
from an extension to what its row says, if it has one.
-/
def FindsMore (f g : Str → Option Str) : Prop := ∀ {ext v : Str}, f ext = some v → g ext = some v

theorem FindsMore.none {f g : Str → Option Str} (h : FindsMore f g) {ext : Str}
    (hext : g ext = none) : f ext = none := by
  cases hf : f ext with
  | none => rfl
  | some v =>
      rw [h hf] at hext
      cases hext

theorem FindsMore.length_le {f g : Str → Option Str} (h : FindsMore f g) (exts : List Str) :
    (exts.filterMap f).length ≤ (exts.filterMap g).length := by
  induction exts with
  | nil => exact Nat.le_refl _
  | cons ext exts ih =>
      cases hf : f ext with
      | some v => simpa [hf, h hf] using ih
      | none =>
          rw [List.filterMap_cons_none hf]
          cases hg : g ext with
          | none => rwa [List.filterMap_cons_none hg]
          | some v =>
              rw [List.filterMap_cons_some hg]
              exact Nat.le_succ_of_le ih

/-- Where it finds as many it finds the same. -/
theorem FindsMore.eq_of_length {f g : Str → Option Str} (h : FindsMore f g) {exts : List Str}
    (hlen : (exts.filterMap f).length = (exts.filterMap g).length) :
    ∀ ext ∈ exts, f ext = g ext := by
  induction exts with
  | nil => exact fun ext hext => by cases hext
  | cons ext exts ih =>
      have hle := h.length_le exts
      have hhead : f ext = g ext := by
        cases hf : f ext with
        | some v => exact (h hf).symm
        | none =>
            cases hg : g ext with
            | none => rfl
            | some v =>
                rw [List.filterMap_cons_none hf, List.filterMap_cons_some hg,
                  List.length_cons] at hlen
                omega
      refine List.forall_mem_cons.mpr ⟨hhead, ih ?_⟩
      cases hg : g ext with
      | none => rwa [List.filterMap_cons_none hg, List.filterMap_cons_none (hhead.trans hg)] at hlen
      | some v =>
          rw [List.filterMap_cons_some hg, List.filterMap_cons_some (hhead.trans hg)] at hlen
          exact Nat.succ.inj hlen

/--
What the smaller table finds, read backwards, is what the larger finds where both
find the same, and it reads the same from both ends.
-/
theorem FindsMore.reverse_eq_iff {f g : Str → Option Str} (h : FindsMore f g) (exts : List Str) :
    (exts.filterMap f).reverse = exts.filterMap g ↔
      (∀ ext ∈ exts, f ext = g ext) ∧ (exts.filterMap g).reverse = exts.filterMap g := by
  have heq : (∀ ext ∈ exts, f ext = g ext) → exts.filterMap f = exts.filterMap g :=
    fun hsame => List.filterMap_congr hsame
  constructor
  · intro hrev
    have hlen := congrArg List.length hrev
    rw [List.length_reverse] at hlen
    have hsame := h.eq_of_length hlen
    rw [heq hsame] at hrev
    exact ⟨hsame, hrev⟩
  · rintro ⟨hsame, hrev⟩
    rw [heq hsame]
    exact hrev

theorem lookupType_findsMore : FindsMore lookupType (anyCase mimeTable) := by
  have hall : ∀ row ∈ mimeTable, anyCase mimeTable row.1.toList = some row.2.toList := by
    decide
  intro ext v h
  obtain ⟨row, hfind, rfl⟩ := Option.map_eq_some_iff.mp h
  have hkey : row.1.toList = ext := by simpa using List.find?_some hfind
  have hrow := hall row (List.mem_of_find?_eq_some hfind)
  rwa [hkey] at hrow

theorem lookupEncoding_row {ext v : Str} (h : lookupEncoding ext = some v) :
    ∃ row ∈ encodingTable, row.1.toList = ext ∧ row.2.toList = v := by
  unfold lookupEncoding at h
  split at h
  · rename_i hext
    cases h
    exact ⟨_, List.mem_cons_self, hext.symm, rfl⟩
  split at h
  · rename_i hext
    cases h
    exact ⟨_, List.mem_cons_of_mem _ List.mem_cons_self, hext.symm, rfl⟩
  split at h
  · rename_i hext
    cases h
    exact ⟨_, List.mem_cons_of_mem _ (List.mem_cons_of_mem _ List.mem_cons_self), hext.symm, rfl⟩
  · cases h

theorem lookupEncoding_findsMore : FindsMore lookupEncoding (anyCase encodingTable) := by
  have hall : ∀ row ∈ encodingTable, anyCase encodingTable row.1.toList = some row.2.toList := by
    decide
  intro ext v h
  obtain ⟨row, hrow, rfl, rfl⟩ := lookupEncoding_row h
  exact hall row hrow

/-- An extension with a type in some case has no encoding in any. -/
theorem anyCase_disjoint {ext : Str} (h : (anyCase mimeTable ext).isSome) :
    anyCase encodingTable ext = none := by
  have hall : ∀ row ∈ mimeTable, ∀ row' ∈ encodingTable,
      foldKey row.1.toList ≠ foldKey row'.1.toList := by decide
  obtain ⟨t, ht⟩ := Option.isSome_iff_exists.mp h
  obtain ⟨row, hrow, hkey, -⟩ := anyCase_row ht
  cases hext : anyCase encodingTable ext with
  | none => rfl
  | some v =>
      obtain ⟨row', hrow', hkey', -⟩ := anyCase_row hext
      exact absurd (hkey.trans hkey'.symm) (hall row hrow row' hrow')

/--
**The C function over this server's tables**, sorted, follows the rule over them.

The C server has tables of its own.  Over this server's it does what the rule says,
so the difference is not one of tables.
-/
theorem legacy_over_tables {typTab : List (String × String)} (hperm : typTab.Perm mimeTable)
    (hsorted : Sorted typTab) (name : Str)
    (hroom : (encodingsAfter (anyCase mimeTable) (anyCase encodingTable)
      (extensions name)).length ≤ Legacy.maxEncodings) :
    Legacy.figureMime encodingTable typTab name =
      ((ruleMime mimeTable encodingTable name).mimeType,
        (ruleMime mimeTable encodingTable name).encoding.getD []) := by
  have hsame : anyCase typTab = anyCase mimeTable :=
    funext (anyCase_perm hperm hsorted.pairwise_ne)
  have hdisjoint : ∀ ext, (anyCase typTab ext).isSome → anyCase encodingTable ext = none := by
    intro ext h
    rw [hsame] at h
    exact anyCase_disjoint h
  have hvalues : ∀ row ∈ encodingTable, row.2.toList ≠ [] := by decide
  rw [← hsame] at hroom
  rw [legacy_figures_rule hsorted hdisjoint hvalues name hroom]
  unfold ruleMime
  rw [hsame]

/-! ### The condition

Two ways to come to the right answer, and they exclude each other: the rightmost
type extension is spelled as the tables are, or it is not and is made up for.
-/

/--
**A name spelled as the tables are**, from its rightmost type extension on, the
encodings there reading the same from both ends.
-/
structure AsSpelled (exts : List Str) : Prop where
  type : ∀ ext, (exts.reverse.find? fun ext => (anyCase mimeTable ext).isSome) = some ext →
    (lookupType ext).isSome
  encoding : ∀ ext ∈ afterType (anyCase mimeTable) exts,
    lookupEncoding ext = anyCase encodingTable ext
  order : (encodingsAfter (anyCase mimeTable) (anyCase encodingTable) exts).reverse =
    encodingsAfter (anyCase mimeTable) (anyCase encodingTable) exts

/--
**The extension passed over is made up for** by another with its type to the left of
it, and by the encodings the code finds after that one.
-/
def MadeUp (exts : List Str) : Prop :=
  ∃ left typed between passed right,
    exts = left ++ typed :: (between ++ passed :: right) ∧
    (lookupType passed = none ∧ (anyCase mimeTable passed).isSome ∧
      ∀ ext ∈ right, anyCase mimeTable ext = none) ∧
    (lookupType typed = anyCase mimeTable passed ∧ ∀ ext ∈ between, lookupType ext = none) ∧
    ((between ++ passed :: right).filterMap lookupEncoding).reverse =
      right.filterMap (anyCase encodingTable)

/-! ### Reading the same

The headers are compared as texts.  No encoding holds the separator, so the joined
text determines the list, and no type in the table is the default one, so a type
that was not found is not mistaken for one.
-/

theorem joinEncodings_inj {a b : List Str} (ha : ∀ v ∈ a, ',' ∉ v) (hb : ∀ v ∈ b, ',' ∉ v) :
    joinEncodings a = joinEncodings b ↔ a = b := by
  refine ⟨fun h => ?_, fun h => by rw [h]⟩
  unfold joinEncodings at h
  by_cases hnil : a = []
  · by_cases hnil' : b = []
    · rw [hnil, hnil']
    · rw [if_pos hnil, if_neg hnil'] at h
      cases h
  · by_cases hnil' : b = []
    · rw [if_neg hnil, if_pos hnil'] at h
      cases h
    · rw [if_neg hnil, if_neg hnil', Option.some.injEq] at h
      rw [← List.splitOn_intercalate ',' ha hnil, h, List.splitOn_intercalate ',' hb hnil']

theorem encoding_noComma {ext v : Str} (h : anyCase encodingTable ext = some v) : ',' ∉ v := by
  have hall : ∀ row ∈ encodingTable, ',' ∉ row.2.toList := by decide
  obtain ⟨row, hrow, -, rfl⟩ := anyCase_row h
  exact hall row hrow

theorem type_ne_octetStream {ext v : Str} (h : anyCase mimeTable ext = some v) :
    v ≠ octetStream := by
  have hall : ∀ row ∈ mimeTable, row.2.toList ≠ octetStream := by decide
  obtain ⟨row, hrow, -, rfl⟩ := anyCase_row h
  exact hall row hrow

/-- No type in the table is the default. -/
theorem getD_rightmostType {f g : Str → Option Str} (hf : FindsMore f (anyCase mimeTable))
    (hg : FindsMore g (anyCase mimeTable)) (exts : List Str) :
    (rightmostType f exts).getD octetStream = (rightmostType g exts).getD octetStream ↔
      rightmostType f exts = rightmostType g exts := by
  have hne : ∀ {f : Str → Option Str}, FindsMore f (anyCase mimeTable) →
      rightmostType f exts ≠ some octetStream := by
    intro f hf h
    obtain ⟨ext, -, hext⟩ := List.exists_of_findSome?_eq_some h
    exact type_ne_octetStream (hf hext) rfl
  refine ⟨fun h => ?_, fun h => by rw [h]⟩
  cases hcf : rightmostType f exts with
  | none =>
      cases hcg : rightmostType g exts with
      | none => rfl
      | some v =>
          rw [hcf, hcg] at h
          exact absurd (hcg.trans (congrArg some h.symm)) (hne hg)
  | some v =>
      cases hcg : rightmostType g exts with
      | none =>
          rw [hcf, hcg] at h
          exact absurd (hcf.trans (congrArg some h)) (hne hf)
      | some w =>
          rw [hcf, hcg] at h
          exact congrArg some h

/-- The code and the rule find the same type, and the same encodings in opposite orders. -/
def ReadsSame (exts : List Str) : Prop :=
  rightmostType lookupType exts = rightmostType (anyCase mimeTable) exts ∧
    (encodingsAfter lookupType lookupEncoding exts).reverse =
      encodingsAfter (anyCase mimeTable) (anyCase encodingTable) exts

theorem figureMime_eq_rule_iff {name : Str} (h : '/' ∉ name) :
    figureMime (Path.parse name) = ruleMime mimeTable encodingTable name ↔
      ReadsSame (extensions name) := by
  have hcode : ∀ v ∈ (encodingsAfter lookupType lookupEncoding (extensions name)).reverse,
      ',' ∉ v := by
    intro v hv
    obtain ⟨ext, -, hext⟩ := List.mem_filterMap.mp (List.mem_reverse.mp hv)
    exact encoding_noComma (lookupEncoding_findsMore hext)
  have hrule : ∀ v ∈ encodingsAfter (anyCase mimeTable) (anyCase encodingTable)
      (extensions name), ',' ∉ v := by
    intro v hv
    obtain ⟨ext, -, hext⟩ := List.mem_filterMap.mp hv
    exact encoding_noComma hext
  rw [figureMime_eq h, ruleMime, MimeInfo.mk.injEq, joinEncodings_inj hcode hrule,
    getD_rightmostType lookupType_findsMore fun h => h]
  rfl

theorem readsSame_of_none {exts : List Str} (h : ∀ ext ∈ exts, anyCase mimeTable ext = none) :
    ReadsSame exts ↔ AsSpelled exts := by
  have hcode : ∀ ext ∈ exts, lookupType ext = none :=
    fun ext hext => lookupType_findsMore.none (h ext hext)
  unfold ReadsSame encodingsAfter
  rw [rightmostType_of_none h, rightmostType_of_none hcode, afterType_of_none h,
    afterType_of_none hcode, lookupEncoding_findsMore.reverse_eq_iff]
  constructor
  · rintro ⟨-, hsame, hrev⟩
    refine ⟨?_, by rwa [afterType_of_none h], by rwa [encodingsAfter, afterType_of_none h]⟩
    intro ext hext
    rw [find?_of_none h] at hext
    cases hext
  · rintro ⟨-, hsame, hrev⟩
    rw [afterType_of_none h] at hsame
    rw [encodingsAfter, afterType_of_none h] at hrev
    exact ⟨rfl, hsame, hrev⟩

theorem readsSame_of_spelled (left : List Str) {right : List Str} {ext : Str} (hext : (lookupType ext).isSome)
    (hright : ∀ ext ∈ right, anyCase mimeTable ext = none) :
    ReadsSame (left ++ ext :: right) ↔ AsSpelled (left ++ ext :: right) := by
  obtain ⟨t, ht⟩ := Option.isSome_iff_exists.mp hext
  have hany : anyCase mimeTable ext = some t := lookupType_findsMore ht
  have hsome : (anyCase mimeTable ext).isSome := by rw [hany]; rfl
  have hcode : ∀ ext ∈ right, lookupType ext = none :=
    fun ext hext => lookupType_findsMore.none (hright ext hext)
  unfold ReadsSame encodingsAfter
  rw [rightmostType_split hext hcode, rightmostType_split hsome hright, afterType_split hext hcode,
    afterType_split hsome hright, lookupEncoding_findsMore.reverse_eq_iff]
  constructor
  · rintro ⟨-, hsame, hrev⟩
    refine ⟨?_, by rwa [afterType_split hsome hright],
      by rwa [encodingsAfter, afterType_split hsome hright]⟩
    intro ext' hext'
    rw [find?_split hsome hright] at hext'
    cases hext'
    exact hext
  · rintro ⟨-, hsame, hrev⟩
    rw [afterType_split hsome hright] at hsame
    rw [encodingsAfter, afterType_split hsome hright] at hrev
    exact ⟨ht.trans hany.symm, hsame, hrev⟩

theorem MadeUp.readsSame {exts : List Str} (h : MadeUp exts) : ReadsSame exts := by
  obtain ⟨left, typed, between, passed, right, rfl, ⟨hpassed, hsome, hright⟩, ⟨htyped, hbetween⟩,
    hencodings⟩ := h
  have hcode : ∀ ext ∈ between ++ passed :: right, lookupType ext = none := by
    intro ext hext
    rcases List.mem_append.mp hext with hext | hext
    · exact hbetween ext hext
    rcases List.mem_cons.mp hext with rfl | hext
    · exact hpassed
    · exact lookupType_findsMore.none (hright ext hext)
  have htyped' : (lookupType typed).isSome := by rwa [htyped]
  have hassoc : left ++ typed :: (between ++ passed :: right) =
      (left ++ typed :: between) ++ passed :: right := by simp
  unfold ReadsSame encodingsAfter
  rw [rightmostType_split htyped' hcode, afterType_split htyped' hcode, hassoc,
    rightmostType_split hsome hright, afterType_split hsome hright]
  exact ⟨htyped, hencodings⟩

/-- A type passed over has to be found further on. -/
theorem ReadsSame.madeUp (left : List Str) {right : List Str} {passed : Str}
    (hpassed : lookupType passed = none) (hsome : (anyCase mimeTable passed).isSome)
    (hright : ∀ ext ∈ right, anyCase mimeTable ext = none)
    (h : ReadsSame (left ++ passed :: right)) : MadeUp (left ++ passed :: right) := by
  obtain ⟨htype, hencodings⟩ := h
  have hcode : ∀ ext ∈ passed :: right, lookupType ext = none :=
    List.forall_mem_cons.mpr
      ⟨hpassed, fun ext hext => lookupType_findsMore.none (hright ext hext)⟩
  rw [rightmostType_split hsome hright, rightmostType_append hcode] at htype
  rcases split_at_type lookupType left with hnone | ⟨left, typed, between, rfl, htyped, hbetween⟩
  · rw [rightmostType_of_none hnone] at htype
    rw [← htype] at hsome
    cases hsome
  have hcode' : ∀ ext ∈ between ++ passed :: right, lookupType ext = none := by
    intro ext hext
    rcases List.mem_append.mp hext with hext | hext
    · exact hbetween ext hext
    · exact hcode ext hext
  rw [rightmostType_split htyped hbetween] at htype
  refine ⟨left, typed, between, passed, right, by simp, ⟨hpassed, hsome, hright⟩,
    ⟨htype, hbetween⟩, ?_⟩
  unfold encodingsAfter at hencodings
  rw [afterType_split hsome hright, List.append_assoc, List.cons_append,
    afterType_split htyped hcode'] at hencodings
  exact hencodings

theorem not_asSpelled (left : List Str) {right : List Str} {passed : Str}
    (hpassed : lookupType passed = none) (hsome : (anyCase mimeTable passed).isSome)
    (hright : ∀ ext ∈ right, anyCase mimeTable ext = none) :
    ¬ AsSpelled (left ++ passed :: right) := by
  intro h
  have hfind := h.type passed (find?_split hsome hright)
  rw [hpassed] at hfind
  cases hfind

/-- The extensions are read the same in one of the two ways. -/
theorem readsSame_iff (exts : List Str) : ReadsSame exts ↔ AsSpelled exts ∨ MadeUp exts := by
  have hmade : MadeUp exts → ReadsSame exts := MadeUp.readsSame
  rcases split_at_type (anyCase mimeTable) exts with hnone |
      ⟨left, ext, right, rfl, hsome, hright⟩
  · have hspelled := readsSame_of_none hnone
    tauto
  cases hext : lookupType ext with
  | some t =>
      have hspelled := readsSame_of_spelled left (by rw [hext]; rfl) hright
      tauto
  | none =>
      have hspelled := not_asSpelled left hext hsome hright
      have hmadeUp := ReadsSame.madeUp left hext hsome hright
      tauto

/--
**`figure_mime` follows the rule** exactly for the names it finds spelled as the
tables are, with encodings that read the same from both ends, and for those where
what it passes over is made up for further to the left.  The rule is what the C
function does with these tables, its table of types sorted, as long as the encodings
fit its array.

The two sides are about the same name: from its extensions alone it is decided
whether the code follows the rule, without running it.
-/
theorem figures_rule_iff (name : Str) (h : '/' ∉ name) :
    (figureMime (Path.parse name) = ruleMime mimeTable encodingTable name ↔
      AsSpelled (extensions name) ∨ MadeUp (extensions name)) ∧
    ∀ typTab : List (String × String), typTab.Perm mimeTable → Sorted typTab →
      (encodingsAfter (anyCase mimeTable) (anyCase encodingTable) (extensions name)).length
        ≤ Legacy.maxEncodings →
      Legacy.figureMime encodingTable typTab name =
        ((ruleMime mimeTable encodingTable name).mimeType,
          (ruleMime mimeTable encodingTable name).encoding.getD []) := by
  refine ⟨?_, fun typTab hperm hsorted hroom => legacy_over_tables hperm hsorted name hroom⟩
  rw [figureMime_eq_rule_iff h, readsSame_iff]

/-- For instance for a compressed archive. -/
theorem figures_rule_archive :
    figureMime (Path.parse "archive.tar.gz".toList) =
      ruleMime mimeTable encodingTable "archive.tar.gz".toList :=
  (figures_rule_iff "archive.tar.gz".toList (by decide)).1.mpr
    (Or.inl ⟨fun ext hext => by cases hext; decide, by decide, by decide⟩)

/-- But not for a name in capitals, nor for an archive compressed twice. -/
theorem capitals_untyped :
    figureMime (Path.parse "INDEX.HTML".toList) = ⟨octetStream, none⟩ ∧
      ruleMime mimeTable encodingTable "INDEX.HTML".toList = ⟨"text/html".toList, none⟩ ∧
      (figureMime (Path.parse "a.tar.gz.bz2".toList)).encoding =
        some "x-bzip2,gzip".toList ∧
      (ruleMime mimeTable encodingTable "a.tar.gz.bz2".toList).encoding =
        some "gzip,x-bzip2".toList := by
  decide

end Thttpd
