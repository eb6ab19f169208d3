/-
The cut in the error pages: `rust/crates/thttpd-http/src/response.rs`.

The argument of a page is cut at a byte, and a cut within a character would panic, which
is `none` here.
-/
import Thttpd.Lib.Slice
import Thttpd.Http.Response

namespace Thttpd

open Text

/-- The loop of `floor_char_boundary`; it does not go below zero. -/
def floorBoundaryFrom (s : Str) : Nat → Option Nat
  | 0 => if isCharBoundary s 0 then some 0 else none
  | index + 1 => if isCharBoundary s (index + 1) then some (index + 1) else floorBoundaryFrom s index

/-- The largest boundary at or below `index`. -/
def floorCharBoundary (s : Str) (index : Nat) : Option Nat :=
  if byteLen s ≤ index then some (byteLen s) else floorBoundaryFrom s index

/-- The argument as the page takes it. -/
def truncated (defanged : Str) : Option Str :=
  if 80 < byteLen defanged then (floorCharBoundary defanged 80).bind (strTo defanged)
  else some defanged

/-- Whether a user agent asks for the padding. -/
def saysMsie (userAgent : Option Str) : Bool := (userAgent.map (containsStr "MSIE".toList)).getD false

/-- What stands before and behind the message of a page. -/
def pageAround (status : Nat) (title : Str) (userAgent : Option Str) (message : Str) : Bytes :=
  let heading := natStr status ++ [' '] ++ title
  asBytes ("<HTML>\n<HEAD><TITLE>".toList ++ heading ++ "</TITLE></HEAD>\n".toList
    ++ "<BODY BGCOLOR=\"#cc9999\" TEXT=\"#000000\" LINK=\"#2020ff\" VLINK=\"#4040cc\">\n".toList
    ++ "<H2>".toList ++ heading ++ "</H2>\n".toList ++ message
    ++ (if saysMsie userAgent then msiePadding else [])
    ++ "<HR>\n<ADDRESS><A HREF=\"".toList ++ serverAddress ++ "\">".toList ++ serverSoftware
    ++ "</A></ADDRESS>\n</BODY>\n</HTML>\n".toList)

/-- `error_page` with the cut as it is made. -/
def slicedErrorPage (status : Nat) (title form arg : Str) (userAgent : Option Str) : Option Bytes :=
  let defanged := defang arg
  let message := if containsStr placeholder form then
      (truncated defanged).map fun t => replace placeholder t form else some form
  message.map (pageAround status title userAgent)

end Thttpd
