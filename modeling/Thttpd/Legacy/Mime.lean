/-
Content types by file name in the server this one is a port of:
`legacy/src/libhttpd.c`.

The tables are rows of an extension and its value, as `mime_encodings.h` and
`mime_types.h` list them.  `init_mime` sorts the second, since it is searched by
halves, and the length of every row's extension is computed there as well.  Here a
row is a pair, the lengths are those of its lists, and the tables are arguments, so
that the function can be asked about the tables of either server.

The pointers of the source walk back from the end of the name.  What has been passed
since the last dot is a list here, and the walk a recursion over the name in
reverse.
-/
import Thttpd.Lib.Text

namespace Thttpd.Legacy

open Text

/-- `strncasecmp`, on strings that end where their lists do. -/
def strncasecmp : Str → Str → Nat → Ordering
  | _, _, 0 => .eq
  | [], [], _ + 1 => .eq
  | [], _ :: _, _ + 1 => .lt
  | _ :: _, [], _ + 1 => .gt
  | a :: s, b :: t, n + 1 =>
      if a.toLower.toNat < b.toLower.toNat then .lt
      else if b.toLower.toNat < a.toLower.toNat then .gt
      else strncasecmp s t n

/-- The linear search. -/
def searchEncodings (encTab : List (String × String)) (ext : Str) : Option (String × String) :=
  encTab.find? fun e =>
    ext.length = e.1.toList.length ∧ strncasecmp ext e.1.toList ext.length = .eq

/-- The binary search, between `bot` and what is here one past the source's `top`. -/
def searchTypes (typTab : List (String × String)) (ext : Str) (bot top : Nat) :
    Option (String × String) :=
  if bot < top then
    let mid := (top - 1 + bot) / 2
    match typTab[mid]? with
    | none => none
    | some e =>
        match strncasecmp ext e.1.toList ext.length with
        | .lt => searchTypes typTab ext bot mid
        | .gt => searchTypes typTab ext (mid + 1) top
        | .eq =>
            if ext.length < e.1.toList.length then searchTypes typTab ext bot mid
            else if e.1.toList.length < ext.length then searchTypes typTab ext (mid + 1) top
            else some e
  else none
termination_by top - bot

/-- The size of `me_indexes`. -/
def maxEncodings : Nat := 100

/-- An encoding found is noted while there is room. -/
def noteEncoding (encTab : List (String × String)) (ext : Str) (encodings : List Str) : List Str :=
  match searchEncodings encTab ext with
  | some e => if encodings.length < maxEncodings then encodings ++ [e.2.toList] else encodings
  | none => encodings

/--
The walk from the end of the name: `ext` is what has been passed since the last dot,
and the name's characters come in reverse.  A dot asks both tables about `ext`, the
encodings first; the name's beginning ends the walk without a type.
-/
def figureFrom (encTab typTab : List (String × String)) : Str → Str → List Str → Str × List Str
  | [], _, encodings => ("application/octet-stream".toList, encodings)
  | c :: before, ext, encodings =>
      if c = '.' then
        let encodings := noteEncoding encTab ext encodings
        match searchTypes typTab ext 0 typTab.length with
        | some e => (e.2.toList, encodings)
        | none => figureFrom encTab typTab before [] encodings
      else figureFrom encTab typTab before (c :: ext) encodings

/-- The header's value: the last encoding found comes first. -/
def encodingsText (encodings : List Str) : Str :=
  encodings.reverse.foldl (fun s val => if s = [] then val else s ++ ',' :: val) []

/-- `figure_mime`: the type, and the encodings, empty where there are none. -/
def figureMime (encTab typTab : List (String × String)) (expnfilename : Str) : Str × Str :=
  let (type, encodings) := figureFrom encTab typTab expnfilename.reverse [] []
  (type, encodingsText encodings)

end Thttpd.Legacy
