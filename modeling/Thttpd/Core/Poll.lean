/-
Tokens and the poll registry: `rust/crates/thttpd-fdwatch/src/lib.rs`, and what the server
uses of `mio`.

Listeners have the tokens below `MAX_LISTENERS`, connections those from there on.  What is
registered is known by its token.  As with `epoll`, a call fails that registers what is
registered, or reregisters or deregisters what is not; `let _ =` ignores that.
-/
import Mathlib.Tactic.Common

namespace Thttpd

abbrev Token := Nat

def maxListeners : Nat := 16

def connBase : Nat := maxListeners

def listenToken (listenerIdx : Nat) : Option Token :=
  if listenerIdx < maxListeners then some listenerIdx else none

def connToken (slabKey : Nat) : Token := connBase + slabKey

def slabKeyFromToken (token : Token) : Option Nat :=
  if connBase ≤ token then some (token - connBase) else none

def isListenToken (token : Token) : Bool := decide (token < connBase)

inductive Interest where
  | readable
  | writable
  deriving DecidableEq, Repr

/-- What is registered, and for which events. -/
abbrev Registry := Token → Option Interest

namespace Registry

def empty : Registry := fun _ => none

/-- The registry with another entry at a token. -/
def put (r : Registry) (token : Token) (entry : Option Interest) : Registry :=
  fun t => if t = token then entry else r t

def register (r : Registry) (token : Token) (interest : Interest) : Option Registry :=
  if r token = none then some (r.put token (some interest)) else none

def reregister (r : Registry) (token : Token) (interest : Interest) : Option Registry :=
  if r token = none then none else some (r.put token (some interest))

def deregister (r : Registry) (token : Token) : Option Registry :=
  if r token = none then none else some (r.put token none)

/-- `let _ =`: a call that fails changes nothing. -/
def orKeep (r : Registry) (result : Option Registry) : Registry := result.getD r

end Registry

/-! ### Tokens lead back

A token is a listener's or a connection's and never both, and no two connections
share one.
-/

theorem connToken_injective {j k : Nat} (h : connToken j = connToken k) : j = k :=
  Nat.add_left_cancel h

theorem connToken_not_lt {n : Nat} (hn : n ≤ maxListeners) (k : Nat) : ¬ connToken k < n :=
  Nat.not_lt.mpr (Nat.le_trans hn (Nat.le_add_right maxListeners k))

/-- No listener shares its token with a connection. -/
theorem connToken_ne_listener {i : Nat} (hi : i < maxListeners) (k : Nat) : i ≠ connToken k :=
  fun h => connToken_not_lt (Nat.le_refl maxListeners) k (h ▸ hi)

/-! ### What the calls leave

One lemma for each call and each token: its own, when the call succeeds and when it
fails, and all others.
-/

namespace Registry

variable {r : Registry} {token : Token} {interest : Interest}

theorem put_same (r : Registry) (token : Token) (entry : Option Interest) :
    r.put token entry token = entry := if_pos rfl

theorem put_other (r : Registry) {t token : Token} (h : t ≠ token) (entry : Option Interest) :
    r.put token entry t = r t := if_neg h

theorem register_of_absent (h : r token = none) :
    r.register token interest = some (r.put token (some interest)) := if_pos h

theorem orKeep_register_of_absent (h : r token = none) :
    r.orKeep (r.register token interest) = r.put token (some interest) := by
  rw [register_of_absent h]
  rfl

/-- The calls leave the other tokens alone. -/
theorem orKeep_other {t : Token} {result : Option Registry} (h : ∀ r', result = some r' → r' t = r t) :
    r.orKeep result t = r t := by
  cases result with
  | none => rfl
  | some r' => exact h r' rfl

/-- What is registered already keeps its entry. -/
theorem orKeep_register_apply (r : Registry) (token : Token) (interest : Interest) (t : Token) :
    r.orKeep (r.register token interest) t =
      if t = token then some ((r t).getD interest) else r t := by
  by_cases ht : t = token
  · subst ht
    rw [if_pos rfl]
    cases h : r t with
    | none =>
        rw [orKeep_register_of_absent h]
        exact put_same r t _
    | some old =>
        have hne : ¬ r t = none := by
          rw [h]
          exact Option.some_ne_none old
        rw [register, if_neg hne]
        exact h
  · rw [if_neg ht]
    refine orKeep_other fun r' hr' => ?_
    unfold register at hr'
    split at hr'
    · cases hr'
      exact put_other r ht _
    · cases hr'

theorem orKeep_reregister_of_present (h : r token ≠ none) :
    r.orKeep (r.reregister token interest) = r.put token (some interest) := by
  rw [reregister, if_neg h]
  rfl

/-- Whether or not it was there, it is gone. -/
theorem orKeep_deregister (r : Registry) (token : Token) :
    r.orKeep (r.deregister token) = r.put token none := by
  unfold orKeep deregister
  split
  · rename_i h
    funext t
    by_cases ht : t = token
    · rw [ht, put_same]
      exact h
    · rw [put_other r ht]
      rfl
  · rfl

end Registry

end Thttpd
