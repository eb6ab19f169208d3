/-
A file tree with symbolic links, and paths into it.

`Node` is the tree.  `walk` is name resolution as a kernel does it: one name at a
time, `..` dropping the last directory reached, a link replaced by its target, a
bounded number of links followed.  `canonicalize` is where the walk ends, and
`stat` what stands there.

The one fact the rest needs is that canonicalizing has an effect only once: the
end of a walk is a list of plain names that leads to something other than a link
(`Real`), and walking along such a list goes nowhere else.
-/
import Thttpd.Lib.Text

namespace Fs

open Text

/-! ### Paths -/

/--
A path: whether it starts at the root, its names in order, and whether it ends in a
slash.  `.` and `..` are kept, since only name resolution knows what they mean.
-/
structure Path where
  absolute : Bool
  comps : List Str
  trailing : Bool
  deriving DecidableEq, Repr

namespace Path

def dot : Str := ['.']

def dotdot : Str := ['.', '.']

/-- Read a path off its spelling.  Empty names are dropped. -/
def parse (s : Str) : Path :=
  { absolute := s.head? = some '/'
    comps := (s.splitOn '/').filter (· ≠ [])
    trailing := s.getLast? = some '/' }

/--
`join`: an absolute argument replaces the base, and an empty one appends only the
slash.
-/
def join (p : Path) (s : Str) : Path :=
  if s.head? = some '/' then parse s
  else
    { absolute := p.absolute
      comps := p.comps ++ (parse s).comps
      trailing := s = [] ∨ (parse s).trailing }

/-- The names `components` iterates over. -/
def components (p : Path) : List Str := p.comps.filter (· ≠ dot)

/-- The path without its last name, or nothing when there is no name to drop. -/
def parent (p : Path) : Option Path :=
  if p.components = [] then none
  else some ⟨p.absolute, p.components.dropLast, false⟩

/-- The last name, unless it is `..`. -/
def fileName (p : Path) : Option Str :=
  match p.components.getLast? with
  | some n => if n = dotdot then none else some n
  | none => none

/-- The spelling of a path. -/
def toStr (p : Path) : Str :=
  (if p.absolute then ['/'] else []) ++ ['/'].intercalate p.comps
    ++ (if p.trailing ∧ p.comps ≠ [] then ['/'] else [])

/-- `starts_with`, name by name. -/
def startsWith (p q : Path) : Bool :=
  (p.absolute == q.absolute) && q.components.isPrefixOf p.components

theorem join_of_relative {p : Path} {s : Str} (h : s.head? ≠ some '/') :
    (p.join s).absolute = p.absolute ∧ (p.join s).comps = p.comps ++ (parse s).comps := by
  unfold join
  rw [if_neg h]
  exact ⟨rfl, rfl⟩

/-- The names of a path that is cut at a slash. -/
theorem parse_comps_append (a b : Str) :
    (parse (a ++ '/' :: b)).comps = (parse a).comps ++ (parse b).comps := by
  simp [parse, List.splitOn_append_cons_self]

/-- A leading slash adds no name. -/
theorem parse_comps_cons (s : Str) : (parse ('/' :: s)).comps = (parse s).comps := by
  have h := parse_comps_append [] s
  simpa [parse] using h

/-- Names put together with slashes are read back. -/
theorem parse_comps_intercalate {names : List Str} (hslash : ∀ name ∈ names, '/' ∉ name)
    (hne : ∀ name ∈ names, name ≠ []) : (parse (['/'].intercalate names)).comps = names := by
  cases names with
  | nil => rfl
  | cons name rest =>
      unfold parse
      simp only
      rw [List.splitOn_intercalate '/' hslash (by simp)]
      rw [List.filter_eq_self]
      intro n hn
      simpa using hne n hn

/-- The names to resolve: a trailing slash asks for a directory, as a final `.` does. -/
def walkNames (p : Path) : List Str := if p.trailing then p.comps ++ [dot] else p.comps

end Path

/-! ### The tree -/

/--
What a server reads of a file's attributes.  `readable` is whether its own process
may open the file, or list the directory.
-/
structure Attr where
  mode : Nat
  mtime : Nat
  readable : Bool
  deriving Repr

inductive Node where
  | file (attr : Attr) (content : Bytes)
  | dir (attr : Attr) (entries : List (Str × Node))
  | symlink (target : Str)

namespace Node

def isDir : Node → Bool
  | .dir _ _ => true
  | _ => false

def isSymlink : Node → Bool
  | .symlink _ => true
  | _ => false

def attr : Node → Attr
  | .file a _ => a
  | .dir a _ => a
  | .symlink _ => ⟨0o777, 0, true⟩

/-- The length `metadata` reports for a file. -/
def len : Node → Nat
  | .file _ c => c.length
  | _ => 0

def child : Node → Str → Option Node
  | .dir _ entries, name => entries.lookup name
  | _, _ => none

/-- Follow names downwards, through directories only. -/
def follow : Node → List Str → Option Node
  | n, [] => some n
  | n, name :: rest =>
      match n.child name with
      | some c => c.follow rest
      | none => none

theorem follow_append (n : Node) (xs ys : List Str) :
    n.follow (xs ++ ys) = (n.follow xs).bind fun m => m.follow ys := by
  induction xs generalizing n with
  | nil => rfl
  | cons x xs ih =>
      simp only [List.cons_append, follow]
      cases n.child x with
      | none => rfl
      | some c => exact ih c

/-- Only a directory has something below it. -/
theorem child_eq_some {n m : Node} {name : Str} (h : n.child name = some m) :
    ∃ a es, n = .dir a es := by
  cases n with
  | dir a es => exact ⟨a, es, rfl⟩
  | file a c => cases h
  | symlink t => cases h

end Node

/-- The kinds of error a server tells apart. -/
inductive ErrorKind where
  | notFound
  | notADirectory
  | filesystemLoop
  | invalidFilename
  | invalidInput
  | isADirectory
  | permissionDenied
  | invalidData
  deriving DecidableEq, Repr

/-- A character no file name can hold. -/
def hasNul (name : Str) : Bool := name.any (· == Char.ofNat 0)

/--
Names that name resolution looks up: neither `.` nor `..`, no longer than a
directory entry may be, and without a null character.
-/
def Plain (name : Str) : Prop :=
  name ≠ Path.dot ∧ name ≠ Path.dotdot ∧ byteLen name ≤ 255 ∧ hasNul name = false

instance (name : Str) : Decidable (Plain name) :=
  inferInstanceAs (Decidable (name ≠ Path.dot ∧ name ≠ Path.dotdot ∧ byteLen name ≤ 255 ∧
    hasNul name = false))

/-- A file system: the entries of the root directory and where the process stands. -/
structure FileSystem where
  rootAttr : Attr
  entries : List (Str × Node)
  cwd : List Str
  cwd_plain : ∀ name ∈ cwd, Plain name

namespace FileSystem

variable (fs : FileSystem)

def root : Node := .dir fs.rootAttr fs.entries

def nodeAt (names : List Str) : Option Node := fs.root.follow names

/-! ### Name resolution -/

/-- How many links one walk may follow. -/
def maxLinks : Nat := 40

/-- Resolve `rest` from the directory `cur`, handing a link to `link`. -/
def walkWith (link : List Str → Path → List Str → Except ErrorKind (List Str)) :
    List Str → List Str → Except ErrorKind (List Str)
  | cur, [] => .ok cur
  | cur, name :: rest =>
      match fs.nodeAt cur with
      | some (.dir _ entries) =>
          if name = Path.dot then walkWith link cur rest
          else if name = Path.dotdot then walkWith link cur.dropLast rest
          else if 255 < byteLen name then .error .invalidFilename
          else if hasNul name then .error .invalidInput
          else match entries.lookup name with
            | none => .error .notFound
            | some (.symlink target) => link cur (Path.parse target) rest
            | some _ => walkWith link (cur ++ [name]) rest
      | _ => .error .notADirectory

/-- Resolution with at most `links` links; an absolute target starts over. -/
def walk : Nat → List Str → List Str → Except ErrorKind (List Str)
  | 0 => fs.walkWith fun _ _ _ => .error .filesystemLoop
  | links + 1 => fs.walkWith fun cur target rest =>
      walk links (if target.absolute then [] else cur) (target.walkNames ++ rest)

/-- The names from the root to where `p` leads, links resolved. -/
def canonicalNames (p : Path) : Except ErrorKind (List Str) :=
  if p.comps.any hasNul then .error .invalidInput
  else if p.absolute = false ∧ p.comps = [] then .error .notFound
  else fs.walk maxLinks (if p.absolute then [] else fs.cwd) p.walkNames

def canonicalize (p : Path) : Except ErrorKind Path :=
  match fs.canonicalNames p with
  | .ok names => .ok ⟨true, names, false⟩
  | .error e => .error e

/-- What stands at `p`, links followed. -/
def stat (p : Path) : Except ErrorKind Node :=
  match fs.canonicalNames p with
  | .ok names =>
      match fs.nodeAt names with
      | some n => .ok n
      | none => .error .notFound
  | .error e => .error e

/-- `Path::exists`. -/
def exists_ (p : Path) : Bool :=
  match fs.stat p with
  | .ok _ => true
  | .error _ => false

/-- `Path::is_dir`. -/
def isDir (p : Path) : Bool :=
  match fs.stat p with
  | .ok n => n.isDir
  | .error _ => false

/-- The bytes of the file at `p`, when the process may read them. -/
def read (p : Path) : Except ErrorKind Bytes :=
  match fs.stat p with
  | .ok (.file a c) => if a.readable then .ok c else .error .permissionDenied
  | .ok _ => .error .isADirectory
  | .error e => .error e

/-! ### The end of a walk -/

/-- A list of plain names that leads to something other than a link. -/
structure Real (names : List Str) : Prop where
  plain : ∀ name ∈ names, Plain name
  node : ∃ n, fs.nodeAt names = some n ∧ n.isSymlink = false

variable {fs}

theorem nodeAt_append (xs : List Str) (name : Str) :
    fs.nodeAt (xs ++ [name]) = (fs.nodeAt xs).bind fun n => n.child name := by
  unfold nodeAt
  rw [Node.follow_append]
  congr 1
  funext n
  simp only [Node.follow]
  cases n.child name <;> rfl

theorem real_nil : fs.Real [] :=
  ⟨by simp, fs.root, rfl, rfl⟩

/-- What lies above a real name list is a directory. -/
theorem Real.dirAbove {xs : List Str} {name : Str} (h : fs.Real (xs ++ [name])) :
    ∃ a es, fs.nodeAt xs = some (.dir a es) := by
  obtain ⟨n, hn, -⟩ := h.node
  rw [nodeAt_append] at hn
  cases hx : fs.nodeAt xs with
  | none => rw [hx] at hn; cases hn
  | some m =>
      rw [hx] at hn
      obtain ⟨a, es, rfl⟩ := Node.child_eq_some hn
      exact ⟨a, es, rfl⟩

theorem Real.dropLast {xs : List Str} (h : fs.Real xs) : fs.Real xs.dropLast := by
  rcases List.eq_nil_or_concat' xs with rfl | ⟨ys, y, rfl⟩
  · exact h
  · obtain ⟨a, es, hd⟩ := h.dirAbove
    simp only [List.dropLast_concat]
    exact ⟨fun name hname => h.plain name (by simp [hname]), _, hd, rfl⟩

theorem Real.of_append {xs ys : List Str} (h : fs.Real (xs ++ ys)) : fs.Real xs := by
  induction ys using List.reverseRecOn with
  | nil => simpa using h
  | append_singleton ys y ih =>
      refine ih ?_
      have := h.dropLast
      rwa [← List.append_assoc, List.dropLast_concat] at this

/-- A walk that follows no links to unreal places ends in a real one. -/
theorem walkWith_real {link : List Str → Path → List Str → Except ErrorKind (List Str)}
    (hlink : ∀ cur t rest names, fs.Real cur → link cur t rest = .ok names → fs.Real names) :
    ∀ (rest cur names : List Str), fs.Real cur → fs.walkWith link cur rest = .ok names →
      fs.Real names := by
  intro rest
  induction rest with
  | nil =>
      intro cur names hcur h
      simp only [walkWith, Except.ok.injEq] at h
      exact h ▸ hcur
  | cons name rest ih =>
      intro cur names hcur h
      simp only [walkWith] at h
      split at h
      · rename_i a es hdir
        split at h
        · exact ih _ _ hcur h
        · rename_i hdot
          split at h
          · exact ih _ _ hcur.dropLast h
          · rename_i hdotdot
            split at h
            · cases h
            · rename_i hlen
              split at h
              · cases h
              · rename_i hnul
                split at h
                · cases h
                · exact hlink _ _ _ _ hcur h
                · rename_i n hns hlookup
                  refine ih _ _ ⟨?_, n, ?_, ?_⟩ h
                  · intro m hm
                    rcases List.mem_append.mp hm with hm | hm
                    · exact hcur.plain m hm
                    · simp only [List.mem_singleton] at hm
                      subst hm
                      exact ⟨hdot, hdotdot, by omega, by simpa using hnul⟩
                  · rw [nodeAt_append, hdir]
                    exact hlookup
                  · cases n with
                    | symlink t => exact absurd rfl (hns t)
                    | file _ _ => rfl
                    | dir _ _ => rfl
      · cases h

theorem walk_real : ∀ (links : Nat) (cur rest names : List Str), fs.Real cur →
    fs.walk links cur rest = .ok names → fs.Real names := by
  intro links
  induction links with
  | zero =>
      intro cur rest names hcur h
      exact walkWith_real (fun _ _ _ _ _ h => by cases h) rest cur names hcur h
  | succ links ih =>
      intro cur rest names hcur h
      refine walkWith_real ?_ rest cur names hcur h
      intro cur' t rest' names' hcur' h'
      refine ih _ _ _ ?_ h'
      split
      · exact real_nil
      · exact hcur'

/-- Walking along a real name list goes where it says. -/
theorem walkWith_of_real
    {link : List Str → Path → List Str → Except ErrorKind (List Str)} :
    ∀ (rest cur : List Str), fs.Real (cur ++ rest) →
      fs.walkWith link cur rest = .ok (cur ++ rest) := by
  intro rest
  induction rest with
  | nil => intro cur _; simp [walkWith]
  | cons name rest ih =>
      intro cur h
      have hstep : fs.Real ((cur ++ [name]) ++ rest) := by simpa using h
      have hone : fs.Real (cur ++ [name]) := hstep.of_append
      obtain ⟨a, es, hdir⟩ := hone.dirAbove
      obtain ⟨hdot, hdotdot, hlen, hnul⟩ := hone.plain name (by simp)
      obtain ⟨n, hn, hns⟩ := hone.node
      rw [nodeAt_append, hdir] at hn
      have hlookup : es.lookup name = some n := hn
      simp only [walkWith, hdir, if_neg hdot, if_neg hdotdot, if_neg (Nat.not_lt.mpr hlen),
        hnul, Bool.false_eq_true, if_false, hlookup]
      cases n with
      | symlink t => cases hns
      | file _ _ => simpa using ih (cur ++ [name]) hstep
      | dir _ _ => simpa using ih (cur ++ [name]) hstep

theorem walk_of_real {names : List Str} (links : Nat) (h : fs.Real names) :
    fs.walk links [] names = .ok names := by
  cases links with
  | zero => exact walkWith_of_real names [] (by simpa using h)
  | succ links => exact walkWith_of_real names [] (by simpa using h)

/-- The first name of a walk is looked up in a directory. -/
theorem walk_cons_dir {links : Nat} {cur rest names : List Str} {name : Str}
    (h : fs.walk links cur (name :: rest) = .ok names) :
    ∃ a es, fs.nodeAt cur = some (.dir a es) := by
  cases links <;>
  · simp only [walk, walkWith] at h
    split at h
    · rename_i a es hdir
      exact ⟨a, es, hdir⟩
    · cases h

/-- Canonicalizing ends in a real place. -/
theorem canonicalNames_real {p : Path} {names : List Str}
    (h : fs.canonicalNames p = .ok names) : fs.Real names := by
  unfold canonicalNames at h
  split at h
  · cases h
  · split at h
    · cases h
    · rename_i hempty
      refine walk_real _ _ _ _ ?_ h
      cases habs : p.absolute with
      | true => exact real_nil
      | false =>
          have hc : p.comps ≠ [] := fun hc => hempty ⟨habs, hc⟩
          have hw : p.walkNames ≠ [] := by
            unfold Path.walkNames
            split
            · simp
            · exact hc
          obtain ⟨name, rest, hw⟩ := List.exists_cons_of_ne_nil hw
          rw [habs, hw] at h
          obtain ⟨a, es, hdir⟩ := walk_cons_dir h
          exact ⟨fs.cwd_plain, _, hdir, rfl⟩

/-- A real name list is its own canonical form. -/
theorem canonicalNames_of_real {names : List Str} (h : fs.Real names) :
    fs.canonicalNames ⟨true, names, false⟩ = .ok names := by
  have hnul : names.any hasNul = false := by
    rw [List.any_eq_false]
    intro name hname
    simp [(h.plain name hname).2.2.2]
  simp only [canonicalNames, hnul, Bool.false_eq_true, if_false, reduceCtorEq, false_and, if_true]
  exact walk_of_real _ h

end FileSystem

end Fs
