/-
Building responses: `rust/crates/thttpd-http/src/response.rs`.

`fullHead` decides the status line and the header lines and `Head.render` writes
them out, so that what a header says can be read off without parsing bytes back.
-/
import Thttpd.Http.Conn

namespace Thttpd

open Text

def serverSoftware : Str := "sthttpd/2.27.0 03oct2014".toList

def serverAddress : Str := "http://localhost".toList

def crlf : Str := ['\r', '\n']

/-- A status line and the header lines in the order they are sent. -/
structure Head where
  protocol : Str
  status : Nat
  statusText : Str
  headers : List (Str × Str)
  deriving DecidableEq, Repr

namespace Head

def renderHeader (h : Str × Str) : Str := h.1 ++ ": ".toList ++ h.2 ++ crlf

def render (h : Head) : Bytes :=
  asBytes (h.protocol ++ [' '] ++ natStr h.status ++ [' '] ++ h.statusText ++ crlf
    ++ h.headers.flatMap renderHeader ++ crlf)

end Head

/-- `ResponseBuilder`, which only the error replies to unparsed requests use. -/
def buildResponse (status : Nat) (statusText : Str) (headers : List (Str × Str)) (body : Bytes) :
    Bytes :=
  Head.render ⟨"HTTP/1.0".toList, status, statusText, headers⟩ ++ body

def defaultCharset : Str := "iso-8859-1".toList

/-- The charset goes on text types that carry none. -/
def fixedType (charset contentType : Str) : Str :=
  let charset := if charset = [] then defaultCharset else charset
  if "text/".toList.isPrefixOf contentType && !containsStr "charset=".toList contentType then
    contentType ++ "; charset=".toList ++ charset
  else contentType

/-- A file without a time is taken to be of now. -/
def modTime (unixNow mtime : Int) : Int := if mtime = 0 then unixNow else mtime

/-- Whether a 200 becomes a 206. -/
def partialContent (http : HttpConn) (status : Nat) (length modTime : Int) : Bool :=
  http.gotRange && status == 200 && decide (http.firstByteIndex ≤ http.lastByteIndex)
    && (http.lastByteIndex != length - 1 || http.firstByteIndex != 0)
    && (http.rangeIf.isNone || http.rangeIf == some modTime)

def contentEncoding : Str := "Content-Encoding".toList

/-- The length of the range of a 206, which the source takes in `i64`. -/
def rangeLength (pf : Platform) (http : HttpConn) : Except Panic Int := do
  let span ← pf.i64 (http.lastByteIndex - http.firstByteIndex)
  pf.i64 (span + 1)

/--
The same where it cannot leave `i64`: no error has a range, and that of a file is
cut to the file.
-/
def HttpConn.rangeLen (http : HttpConn) : Int := http.lastByteIndex - http.firstByteIndex + 1

/-- A range that ends within `i64::MAX` bytes has its length. -/
theorem rangeLength_eq (pf : Platform) {http : HttpConn} (hfirst : 0 ≤ http.firstByteIndex)
    (horder : http.firstByteIndex ≤ http.lastByteIndex) (hlast : http.lastByteIndex < i64Max) :
    rangeLength pf http = .ok http.rangeLen := by
  unfold rangeLength HttpConn.rangeLen
  have hspan : pf.i64 (http.lastByteIndex - http.firstByteIndex) =
      .ok (http.lastByteIndex - http.firstByteIndex) :=
    if_pos (by unfold i64Min i64Max at *; omega)
  rw [hspan]
  exact if_pos (by unfold i64Min i64Max at *; omega)

/-- The status line and header lines of `build_full_response`, with the length a range has. -/
def fullHead (pf : Platform) (unixNow : Int) (http : HttpConn) (status : Nat) (statusText : Str)
    (contentType : Str) (length mtime : Int) (extraHeaders : List (Str × Str)) (rangeLen : Int) :
    Head :=
  let modTime := modTime unixNow mtime
  let isPartial := partialContent http status length modTime
  let finalStatus := if isPartial then 206 else status
  let cacheControl := if finalStatus / 100 ≠ 2 ∧ finalStatus / 100 ≠ 3 then
      [("Cache-Control".toList, "no-cache,no-store".toList)] else []
  let encodings := (extraHeaders.filter fun h => eqIgnoreAsciiCase h.1 contentEncoding).map
    fun h => (contentEncoding, h.2)
  let lengths :=
    if isPartial then
      [("Content-Range".toList, "bytes ".toList ++ intStr http.firstByteIndex ++ ['-']
          ++ intStr http.lastByteIndex ++ ['/'] ++ intStr length),
       ("Content-Length".toList, intStr rangeLen)]
    else if 0 ≤ length then [("Content-Length".toList, intStr length)]
    else []
  { protocol := if http.httpVersion = [] then "HTTP/1.0".toList else http.httpVersion
    status := finalStatus
    statusText := if isPartial then "Partial Content".toList else statusText
    headers :=
      [("Server".toList, serverSoftware),
       ("Content-Type".toList, fixedType http.charset contentType),
       ("Date".toList, pf.formatHttpDate unixNow),
       ("Last-Modified".toList, pf.formatHttpDate modTime),
       ("Accept-Ranges".toList, "bytes".toList),
       ("Connection".toList, "close".toList)]
      ++ cacheControl ++ encodings ++ lengths
      ++ extraHeaders.filter fun h => !eqIgnoreAsciiCase h.1 contentEncoding }

/-- `build_full_response`: nothing at all for HTTP/0.9. -/
def buildFullResponse (pf : Platform) (unixNow : Int) (http : HttpConn) (status : Nat)
    (statusText : Str) (contentType : Str) (length mtime : Int)
    (extraHeaders : List (Str × Str)) (rangeLen : Int) : Bytes :=
  if http.mimeFlag then
    (fullHead pf unixNow http status statusText contentType length mtime extraHeaders
      rangeLen).render
  else []

/-! ### Error pages

The argument of a page is what the client asked for, and is defanged before it is
put in.
-/

def defangChar (c : Char) : Str :=
  if c = '<' then "&lt;".toList else if c = '>' then "&gt;".toList else [c]

def defang (s : Str) : Str := s.flatMap defangChar

def msiePadding : Str :=
  "<!--\n".toList
    ++ (List.replicate 6
      "Padding so that MSIE deigns to show this error instead of its own canned one.\n".toList).flatten
    ++ "-->\n".toList

/-- The placeholder of a form, which takes at most 80 bytes of the argument. -/
def placeholder : Str := "%.80s".toList

def errorPage (status : Nat) (title form arg : Str) (userAgent : Option Str) : Bytes :=
  let message := if containsStr placeholder form then
      replace placeholder (takeBytes 80 (defang arg)) form else form
  let heading := natStr status ++ [' '] ++ title
  let padding := match userAgent with
    | some ua => if containsStr "MSIE".toList ua then msiePadding else []
    | none => []
  asBytes ("<HTML>\n<HEAD><TITLE>".toList ++ heading ++ "</TITLE></HEAD>\n".toList
    ++ "<BODY BGCOLOR=\"#cc9999\" TEXT=\"#000000\" LINK=\"#2020ff\" VLINK=\"#4040cc\">\n".toList
    ++ "<H2>".toList ++ heading ++ "</H2>\n".toList ++ message ++ padding
    ++ "<HR>\n<ADDRESS><A HREF=\"".toList ++ serverAddress ++ "\">".toList ++ serverSoftware
    ++ "</A></ADDRESS>\n</BODY>\n</HTML>\n".toList)

end Thttpd
