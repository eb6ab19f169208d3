/-
Directories as a process sees them.

What a name leads to from a directory depends on the root of the process: `..` does not lead
out of it, and a link may start there.  A process is at a place, and a path is resolved from
its root or from where it stands.
-/
import Thttpd.Lib.Fs

namespace Dirs

open Text Fs

/-- Where a name leads from a directory, for a process with that root. -/
structure Graph (D : Type) where
  enter : D → D → Str → Option D
  dot : ∀ root d, enter root d Path.dot = some d

/-- The root of a process, and where it stands. -/
structure Place (D : Type) where
  root : D
  cwd : D
  deriving DecidableEq

variable {D : Type} (g : Graph D)

def Graph.walk (root start : D) (names : List Str) : Option D := names.foldlM (g.enter root) start

/-- The directory a path leads to. -/
def Graph.resolve (p : Place D) (path : Path) : Option D :=
  g.walk p.root (if path.absolute then p.root else p.cwd) path.comps

theorem Graph.resolve_absolute {p q : Place D} {path : Path} (habs : path.absolute = true)
    (hroot : q.root = p.root) : g.resolve q path = g.resolve p path := by
  unfold Graph.resolve
  rw [if_pos habs, if_pos habs, hroot]

theorem Graph.resolve_root (p : Place D) : g.resolve p (.parse ['/']) = some p.root := rfl

theorem Graph.resolve_dot (p : Place D) : g.resolve p (.parse Path.dot) = some p.cwd := by
  have hcomps : (Path.parse Path.dot).comps = [Path.dot] := by decide
  have habs : (Path.parse Path.dot).absolute = false := rfl
  unfold Graph.resolve Graph.walk
  rw [habs, hcomps, List.foldlM_cons, if_neg Bool.false_ne_true, g.dot]
  rfl

/-- At the root it makes no difference whether a path starts there. -/
theorem Graph.resolve_under_root (d : D) (path : Path) :
    g.resolve ⟨d, d⟩ path = g.walk d d path.comps := by
  show g.walk d (if path.absolute then d else d) path.comps = _
  rw [ite_self]

end Dirs
