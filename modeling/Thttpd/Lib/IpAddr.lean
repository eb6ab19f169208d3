/-
Addresses as the standard library prints them.

An IPv6 address is printed as eight groups, the longest run of zero groups left out, or
with the IPv4 address it stands for.
-/
import Thttpd.Lib.Text

namespace Net

open Text

inductive IpAddr where
  | v4 (a b c d : UInt8)
  | v6 (segments : Vector UInt16 8)
  deriving DecidableEq, Repr

/-- A run of groups. -/
structure Span where
  start : Nat
  len : Nat
  deriving DecidableEq, Repr

/-- The longest run of zero groups so far, and the one that goes on. -/
def Span.next (acc : Span × Span) (group : Nat × UInt16) : Span × Span :=
  if group.2 = 0 then
    let current := if acc.2.len = 0 then ⟨group.1, 1⟩ else ⟨acc.2.start, acc.2.len + 1⟩
    (if acc.1.len < current.len then current else acc.1, current)
  else (acc.1, ⟨0, 0⟩)

/-- The longest run of zero groups, the first of equals. -/
def zeroes (segments : List UInt16) : Span :=
  (((List.range segments.length).zip segments).foldl Span.next (⟨0, 0⟩, ⟨0, 0⟩)).1

def dotted (octets : List UInt8) : Str := ['.'].intercalate (octets.map fun b => natStr b.toNat)

def groups (segments : List UInt16) : Str :=
  [':'].intercalate (segments.map fun g => Nat.toDigits 16 g.toNat)

/-- The two octets of a group. -/
def octets (g : UInt16) : List UInt8 := [UInt8.ofNat (g.toNat / 256), UInt8.ofNat g.toNat]

/-- `IpAddr`'s `Display`. -/
def IpAddr.display : IpAddr → Str
  | v4 a b c d => dotted [a, b, c, d]
  | v6 segments =>
      let gs := segments.toList
      if gs.take 6 = [0, 0, 0, 0, 0, 0xffff] then
        "::ffff:".toList ++ dotted ((gs.drop 6).flatMap octets)
      else
        let z := zeroes gs
        if 1 < z.len then groups (gs.take z.start) ++ "::".toList ++ groups (gs.drop (z.start + z.len))
        else groups gs

structure SocketAddr where
  ip : IpAddr
  port : UInt16
  /-- Of an IPv6 address only. -/
  scopeId : Nat
  deriving DecidableEq, Repr

def SocketAddr.display (addr : SocketAddr) : Str :=
  match addr.ip with
  | .v4 .. => addr.ip.display ++ [':'] ++ natStr addr.port.toNat
  | .v6 _ =>
      ['['] ++ addr.ip.display ++ (if addr.scopeId = 0 then [] else ['%'] ++ natStr addr.scopeId)
        ++ "]:".toList ++ natStr addr.port.toNat

/-! ### The characters -/

/-- What addresses are printed in. -/
def isAddrChar (c : Char) : Bool := c.isDigit || ('a' ≤ c && c ≤ 'f') || c == '.' || c == ':'

/-- What joined parts are made of. -/
theorem forall_mem_intercalate {p : Char → Bool} {sep : Char} (hsep : p sep = true) {parts : List Str}
    (h : ∀ part ∈ parts, ∀ c ∈ part, p c = true) : ∀ c ∈ [sep].intercalate parts, p c = true := by
  induction parts with
  | nil => simp
  | cons part rest ih =>
      have hpart := h part List.mem_cons_self
      cases rest with
      | nil => simpa using hpart
      | cons r rest =>
          rw [List.intercalate_cons_cons]
          intro c hc
          rcases List.mem_append.mp hc with hc | hc
          · rcases List.mem_append.mp hc with hc | hc
            · exact hpart c hc
            · rwa [List.mem_singleton.mp hc]
          · exact ih (fun q hq => h q (List.mem_cons_of_mem part hq)) c hc

theorem isAddrChar_of_natStr {n : Nat} {c : Char} (h : c ∈ natStr n) : isAddrChar c = true := by
  have hdigit : c.isDigit = true := Nat.isDigit_of_mem_toDigits (by decide) (by decide) h
  simp [isAddrChar, hdigit]

theorem isAddrChar_of_hex {n : Nat} {c : Char} (h : c ∈ Nat.toDigits 16 n) : isAddrChar c = true := by
  have hdigit : ∀ n < 16, isAddrChar n.digitChar = true := by decide
  induction n using Nat.strong_induction_on with
  | _ n ih =>
      rcases Nat.lt_or_ge n 16 with hlt | hge
      · rw [Nat.toDigits_of_lt_base hlt, List.mem_singleton] at h
        rw [h]
        exact hdigit n hlt
      · rw [Nat.toDigits_of_base_le (by decide) hge, List.mem_append, List.mem_singleton] at h
        rcases h with h | rfl
        · exact ih (n / 16) (by omega) h
        · exact hdigit (n % 16) (Nat.mod_lt n (by decide))

theorem isAddrChar_dotted (octets : List UInt8) : ∀ c ∈ dotted octets, isAddrChar c = true := by
  refine forall_mem_intercalate (by decide) ?_
  intro part hpart c hc
  obtain ⟨b, -, rfl⟩ := List.mem_map.mp hpart
  exact isAddrChar_of_natStr hc

theorem isAddrChar_groups (segments : List UInt16) : ∀ c ∈ groups segments, isAddrChar c = true := by
  refine forall_mem_intercalate (by decide) ?_
  intro part hpart c hc
  obtain ⟨g, -, rfl⟩ := List.mem_map.mp hpart
  exact isAddrChar_of_hex hc

/-- **An address is printed in digits, dots and colons.** -/
theorem IpAddr.isAddrChar_display (ip : IpAddr) : ∀ c ∈ ip.display, isAddrChar c = true := by
  have happend : ∀ {s t : Str}, (∀ c ∈ s, isAddrChar c = true) → (∀ c ∈ t, isAddrChar c = true) →
      ∀ c ∈ s ++ t, isAddrChar c = true := fun hs ht => List.forall_mem_append.mpr ⟨hs, ht⟩
  cases ip with
  | v4 a b c d => exact isAddrChar_dotted _
  | v6 segments =>
      have hmapped : "::ffff:".toList.all isAddrChar = true := by decide
      have hgap : "::".toList.all isAddrChar = true := by decide
      unfold display
      simp only
      split
      · exact happend (List.all_eq_true.mp hmapped) (isAddrChar_dotted _)
      split
      · exact happend (happend (isAddrChar_groups _) (List.all_eq_true.mp hgap)) (isAddrChar_groups _)
      · exact isAddrChar_groups _

end Net
