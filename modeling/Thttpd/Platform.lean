/-
What the server calls and this development does not look inside.

`Platform` gathers the functions that come from outside the modelled code: the
Unicode case tables, `crypt(3)`, base64, and the texts of HTTP dates and directory
listings, which have results of their own and of which the request path only uses
the answer.  A development over a `Platform` holds for each of them.

`Panic` lists the ways the modelled code can abort.  Arithmetic on fixed-width
integers goes through `i64` and `usize`: a result outside the type aborts when the
binary was built with overflow checks and wraps around when it was not.
-/
import Thttpd.Lib.Fs

namespace Thttpd

open Text Fs

/-- Why a handler aborted. -/
inductive Panic where
  /-- An integer operation left its type, in a build that checks. -/
  | overflow
  /-- A slice whose start lies after its end. -/
  | sliceOrder
  /-- A slice that ends after the data. -/
  | sliceEnd
  deriving DecidableEq, Repr

structure Platform where
  /-- Whether integer overflow aborts (a debug build) or wraps (a release build). -/
  overflowChecks : Bool
  /-- `str::to_lowercase`. -/
  toLowercase : Str → Str
  /-- `crypt(3)` on key and salt; `none` when it returns a null pointer. -/
  crypt : Str → Str → Option Str
  /-- The standard base64 alphabet with padding. -/
  base64Decode : Str → Option Bytes
  /-- `thttpd_tdate::format_http_date`. -/
  formatHttpDate : Int → Str
  /-- `dirlist::generate_listing`; `none` is an I/O error. -/
  generateListing : FileSystem → Path → Str → Option Bytes

namespace Platform

variable (pf : Platform)

/-- `x` is the exact result of an operation on `i64`. -/
def i64 (x : Int) : Except Panic Int :=
  if i64Min ≤ x ∧ x ≤ i64Max then .ok x
  else if pf.overflowChecks then .error .overflow
  else .ok (x.bmod (18446744073709551616))

/-- A result that fits is the result. -/
theorem i64_eq {pf : Platform} {x y : Int} (hlo : i64Min ≤ x) (hhi : x ≤ i64Max)
    (h : pf.i64 x = .ok y) : y = x := by
  unfold i64 at h
  rw [if_pos ⟨hlo, hhi⟩] at h
  cases h
  rfl

/-- `x` is the exact result of an operation on a 64-bit `usize`. -/
def usize (x : Nat) : Except Panic Nat :=
  if x < 18446744073709551616 then .ok x
  else if pf.overflowChecks then .error .overflow
  else .ok (x % 18446744073709551616)

/--
ASCII text at the epoch, with no credentials to check and nothing to list: enough to
run a request for a file.
-/
def epoch : Platform where
  overflowChecks := true
  toLowercase := asciiLower
  crypt := fun _ _ => none
  base64Decode := fun _ => none
  formatHttpDate := fun _ => "Thu, 01 Jan 1970 00:00:00 GMT".toList
  generateListing := fun _ _ _ => none

end Platform

/-- The cast `x as usize` of an `i64`: a negative number becomes a very large one. -/
def asUsize (x : Int) : Nat := if 0 ≤ x then x.toNat else (x + 18446744073709551616).toNat

theorem asUsize_of_nonneg {x : Int} (h : 0 ≤ x) : asUsize x = x.toNat := if_pos h

/-- Cutting `start..end` out of `data`. -/
def slice (data : Bytes) (start stop : Nat) : Except Panic Bytes :=
  if stop < start then .error .sliceOrder
  else if data.length < stop then .error .sliceEnd
  else .ok ((data.take stop).drop start)

/-- Cutting `start..` out of `data`. -/
def sliceFrom (data : Bytes) (start : Nat) : Except Panic Bytes :=
  if data.length < start then .error .sliceEnd else .ok (data.drop start)

/-- The way a computation aborted, if it did. -/
def panicOf {α : Type} : Except Panic α → Option Panic
  | .error p => some p
  | .ok _ => none

/-- The result of a computation, with `d` in the place of an abort. -/
def resultOf {α : Type} (d : α) : Except Panic α → α
  | .error _ => d
  | .ok a => a

theorem eq_ok_of_panicOf {α : Type} {x : Except Panic α} (d : α) (h : panicOf x = none) :
    x = .ok (resultOf d x) := by
  cases x with
  | error p => cases h
  | ok a => rfl

/-- A computation that binds another succeeds exactly when both do. -/
theorem bind_eq_ok {ε α β : Type} {x : Except ε α} {f : α → Except ε β} {b : β} :
    (x >>= f) = .ok b ↔ ∃ a, x = .ok a ∧ f a = .ok b := by
  cases x with
  | error e =>
      constructor
      · intro h; cases h
      · rintro ⟨a, h, -⟩; cases h
  | ok a =>
      constructor
      · intro h; exact ⟨a, rfl, h⟩
      · rintro ⟨a', h, h'⟩; cases h; exact h'

/-- It fails exactly when one of them does. -/
theorem bind_eq_error {ε α β : Type} {x : Except ε α} {f : α → Except ε β} {e : ε} :
    (x >>= f) = .error e ↔ x = .error e ∨ ∃ a, x = .ok a ∧ f a = .error e := by
  cases x with
  | error e' =>
      constructor
      · intro h; cases h; exact .inl rfl
      · rintro (h | ⟨a, h, -⟩)
        · cases h; rfl
        · cases h
  | ok a =>
      constructor
      · intro h; exact .inr ⟨a, rfl, h⟩
      · rintro (h | ⟨a', h, h'⟩)
        · cases h
        · cases h; exact h'

end Thttpd
