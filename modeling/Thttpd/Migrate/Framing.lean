/-
Control frames: `write_frame` and `read_frame` in `rust/crates/thttpd-migrate/src/control.rs`.

A frame is the length of the payload in four bytes and the payload.  The writer casts the
length to `u32`; the reader refuses what is longer than 16 MiB.

The stream is a list of chunks as they arrive, with its end where the peer closed.
`read_exact` goes on from one chunk to the next until it has everything or finds the
end.
-/
import Thttpd.Lib.Chunks
import Thttpd.Lib.Text

namespace Thttpd.Migrate

open Text Chunks

/-- `u32::to_be_bytes`. -/
def toBeBytes (n : Nat) : Bytes :=
  [UInt8.ofNat (n / 16777216), UInt8.ofNat (n / 65536), UInt8.ofNat (n / 256), UInt8.ofNat n]

/-- `u32::from_be_bytes`. -/
def fromBeBytes (bytes : Bytes) : Nat := bytes.foldl (fun n b => n * 256 + b.toNat) 0

/-- `as u32`. -/
def asU32 (n : Nat) : Nat := n % 4294967296

/-- What has been written once a frame is. -/
def writeFrame (w bytes : Bytes) : Bytes := w ++ toBeBytes (asU32 bytes.length) ++ bytes

def maxFrame : Nat := 16 * 1024 * 1024

inductive FrameError where
  /-- `read_exact` came to the end of the stream. -/
  | unexpectedEof
  | other (message : Str)
  deriving DecidableEq, Repr

/-- `read_frame`, with what it leaves of the stream. -/
def readFrame (r : List Bytes) : Except FrameError (Bytes × List Bytes) :=
  match readExact 4 r with
  | none => .error .unexpectedEof
  | some (lenBuf, r) =>
      let len := fromBeBytes lenBuf
      if len ≤ maxFrame then
        match readExact len r with
        | none => .error .unexpectedEof
        | some frame => .ok frame
      else .error (.other ("control frame too large: ".toList ++ natStr len))

/-- What `n` calls return, one after the other.  Every caller gives up at an error. -/
def readFrames : Nat → List Bytes → List (Except FrameError Bytes)
  | 0, _ => []
  | n + 1, r =>
      match readFrame r with
      | .error e => [.error e]
      | .ok (frame, r) => .ok frame :: readFrames n r

end Thttpd.Migrate
