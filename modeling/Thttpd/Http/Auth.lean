/-
Basic authentication: `rust/crates/thttpd-auth/src/lib.rs`.

`crypt` and the base64 decoder are the platform's.  A check has four answers, of
which `noAuthFile` is that no directory above the path has a password file;
everything that cannot be read is answered with a 403.
-/
import Thttpd.Platform

namespace Thttpd

open Text Fs

/-- The name of a password file. -/
def authFile : Str := ".htpasswd".toList

def err401Title : Str := "Unauthorized".toList

def err401Form : Str := "Authorization required for the URL '%.80s'.\n".toList

inductive AuthResult where
  | noAuthFile
  | ok
  | unauthorized
  | forbidden
  deriving DecidableEq, Repr

/-- Compare `crypt` of the password with the stored hash, which is also the salt. -/
def verifyPassword (pf : Platform) (password storedHash : Str) : Bool :=
  if hasNul password || hasNul storedHash then false
  else pf.crypt password storedHash == some storedHash

def basicScheme : Str := "Basic ".toList

/-- The user and password of an `Authorization: Basic` value. -/
def parseBasicAuth (pf : Platform) (authorization : Str) : Option (Str × Str) :=
  let auth := trim authorization
  if basicScheme.isPrefixOf auth then
    (pf.base64Decode (trim (auth.drop basicScheme.length))).bind fun decoded =>
      (fromUtf8 decoded).bind fun s => splitOnce ':' s
  else none

/-- The first line for the user decides. -/
def checkLines (pf : Platform) (user pass : Str) : List Str → AuthResult
  | [] => .unauthorized
  | line :: rest =>
      let line := trimEnd line
      if line = [] then checkLines pf user pass rest
      else match splitOnce ':' line with
        | none => checkLines pf user pass rest
        | some (lineUser, lineHash) =>
            if lineUser ≠ user then checkLines pf user pass rest
            else if verifyPassword pf pass lineHash then .ok
            else .unauthorized

def checkHtpasswd (pf : Platform) (fs : FileSystem) (authPath : Path) (authorization : Str) :
    AuthResult :=
  match parseBasicAuth pf authorization with
  | none => .unauthorized
  | some (user, pass) =>
      match fs.read authPath with
      | .error _ => .forbidden
      | .ok bytes =>
          match fromUtf8 bytes with
          | none => .forbidden
          | some content => checkLines pf user pass (lines content)

/-- The directories above a path, nearest first: what repeated `parent` visits. -/
def ancestors (p : Path) : List Path :=
  p.components.inits.dropLast.reverse.map fun names => ⟨p.absolute, names, false⟩

/-- Whether a directory holds a password file. -/
def hasAuthFile (fs : FileSystem) (dir : Path) : Bool := fs.exists_ (dir.join authFile)

def authCheck2 (pf : Platform) (fs : FileSystem) (path : Path) (authorization : Str) :
    AuthResult :=
  match (ancestors path).find? (hasAuthFile fs) with
  | some dir => checkHtpasswd pf fs (dir.join authFile) authorization
  | none => .noAuthFile

end Thttpd
