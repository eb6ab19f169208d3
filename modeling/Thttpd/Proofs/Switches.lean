/-
The switches of the command line.

Three passes read the arguments: one rewrites legacy spellings, one looks for the arguments that
are switches, and `clap` reads them by its grammar, where a switch can also stand in a bundle of
short flags.  The settings come from what `clap` found, in an order of the code's own, and then
from the switches the second pass found, in theirs.  So a switch in a bundle decides nothing
that a switch on its own has decided, even where it comes later.

The three passes are taken apart in the order in which they read.  First the grammar,
as the documentation of `clap` has it, and the meaning of a switch; then the second
pass, which is shown to find the switches that are arguments of their own and no
others; then the fields `clap` fills in, which say of every switch whether it occurs
at all.  A setting is then what the last switch of its own says, and where there is
none, what the fields say.
-/
import Thttpd.Core.Config
import Thttpd.Lib.Last

namespace Thttpd.Config

open Text Updates

/-! ### The grammar

`clap` is a parameter, so what it is relied on for has to be written down: how an
argument is told from a value, what a bundle of short flags holds, and that a value
is never taken for a switch.
-/

/-- The switches of the program, long and short. -/
inductive Switch where
  | chroot
  | noChroot
  | symlinks
  | noSymlinks
  | vhost
  | noVhost
  | globalPasswd
  | noGlobalPasswd
  | debug
  | legacyVersion
  deriving DecidableEq, Repr

/-- The long arguments of `Cli`: a switch, or one that takes a value. -/
def longArgs : List (Str × Option Switch) :=
  [("port".toList, none), ("dir".toList, none), ("chroot".toList, some .chroot),
    ("nor".toList, some .noChroot), ("data-dir".toList, none), ("symlinks".toList, some .symlinks),
    ("no-symlinks".toList, some .noSymlinks), ("user".toList, none), ("log".toList, none),
    ("cgipat".toList, none), ("charset".toList, none), ("p3p".toList, none), ("maxage".toList, none),
    ("nov".toList, some .noVhost), ("vhost".toList, some .vhost),
    ("global-passwd".toList, some .globalPasswd),
    ("no-global-passwd".toList, some .noGlobalPasswd), ("config".toList, none),
    ("debug".toList, some .debug), ("throttle-file".toList, none), ("hostname".toList, none),
    ("pidfile".toList, none), ("cgi-limit".toList, none),
    ("legacy-version".toList, some .legacyVersion)]

/-- The short flags, and those that take a value. -/
def shortArgs : List (Char × Option Switch) :=
  [('p', none), ('d', none), ('r', some .chroot), ('u', none), ('l', none), ('c', none), ('T', none),
    ('P', none), ('M', none), ('v', some .vhost), ('C', none), ('D', some .debug), ('t', none),
    ('H', none), ('i', none), ('V', some .legacyVersion)]

/-- The switches of a bundle, and whether it ends in an argument whose value is the next. -/
def readBundle : Str → Option (List Switch × Bool)
  | [] => some ([], false)
  | c :: cs =>
      match shortArgs.lookup c with
      | some (some s) => (readBundle cs).map fun r => (s :: r.1, r.2)
      | some none => some ([], cs.isEmpty)
      | none => none

/-- A switch where it stands. -/
structure Occurrence where
  switch : Switch
  /-- It is not an argument of its own. -/
  bundled : Bool
  deriving DecidableEq, Repr

/-- A long argument: its switch, or whether its value is the next argument. -/
def readLong (body : Str) : Option (Option Switch × Bool) :=
  let parts := (splitOnce '=' body).elim (body, false) fun p => (p.1, true)
  match longArgs.lookup parts.1 with
  | some (some s) => if parts.2 then none else some (some s, false)
  | some none => some (none, !parts.2)
  | none => none

/-- What one argument holds, and whether it takes the next for its value. -/
def readArg : Str → Option (List Occurrence × Bool)
  | '-' :: '-' :: body => (readLong body).map fun r => (r.1.toList.map (⟨·, false⟩), r.2)
  | '-' :: bundle => (readBundle bundle).map fun r => (r.1.map (⟨·, decide (bundle.length ≠ 1)⟩), r.2)
  | _ => none

/-- An argument that begins with a dash is never a value, but for the dash alone. -/
def isValue (arg : Str) : Bool := arg.head? ≠ some '-' || arg = ['-']

/--
The arguments behind the program, where the first may be a value.  There is nothing
behind `--`, as the program takes no positional arguments.
-/
def readArgs : Bool → List Str → Option (List Occurrence)
  | pending, [] => if pending then none else some []
  | true, arg :: args => if isValue arg then readArgs false args else none
  | false, arg :: args =>
      if isValue arg then none
      else if arg = "--".toList then if args = [] then some [] else none
      else (readArg arg).bind fun r => (readArgs r.2 args).map fun more => r.1 ++ more

/-- The field of a switch. -/
def Cli.has (cli : Cli) : Switch → Bool
  | .chroot => cli.chroot
  | .noChroot => cli.noChroot
  | .symlinks => cli.symlinks
  | .noSymlinks => cli.noSymlinks
  | .vhost => cli.vhost
  | .noVhost => cli.noVhost
  | .globalPasswd => cli.globalPasswd
  | .noGlobalPasswd => cli.noGlobalPasswd
  | .debug => cli.debug
  | .legacyVersion => cli.legacyVersion

/-- What `clap` accepts it reads by its grammar, and the fields of switches say which occur. -/
def ReadsSwitches (parse : List Str → Option Cli) : Prop :=
  ∀ args cli, parse args = some cli → ∃ occs, readArgs false (args.drop 1) = some occs ∧
    ∀ s, cli.has s = occs.any fun o => o.switch = s

/-- The switches on a command line, in their order. -/
def switchesOf (raw : List Str) : List Occurrence :=
  (readArgs false ((normalizeLegacyArgs raw).drop 1)).getD []

/-! ### What the switches say

A setting has a value at the start and every switch about it sets it.  So the
settings after a command line are a fold.
-/

/-- The four settings with switches of the old kind. -/
inductive Setting where
  | doChroot
  | noSymlinkCheck
  | vhost
  | globalPasswd
  deriving DecidableEq, Repr

/-- What a configuration has of them. -/
def ServerConfig.setting (c : ServerConfig) : Setting → Bool
  | .doChroot => c.doChroot
  | .noSymlinkCheck => c.noSymlinkCheck
  | .vhost => c.vhost
  | .globalPasswd => c.globalPasswd

/-- What a switch makes of a setting, if it is about it. -/
def Switch.sets : Switch → Setting → Option Bool
  | .chroot, .doChroot => some true
  | .chroot, .noSymlinkCheck => some true
  | .noChroot, .doChroot => some false
  | .noChroot, .noSymlinkCheck => some false
  | .symlinks, .noSymlinkCheck => some false
  | .noSymlinks, .noSymlinkCheck => some true
  | .vhost, .vhost => some true
  | .noVhost, .vhost => some false
  | .globalPasswd, .globalPasswd => some true
  | .noGlobalPasswd, .globalPasswd => some false
  | _, _ => none

/-- A switch sets its setting wherever it stands. -/
def Occurrence.sets (o : Occurrence) (k : Setting) : Option Bool := o.switch.sets k

/-- The settings after a switch. -/
def applySwitch (v : Setting → Bool) (o : Occurrence) : Setting → Bool := fun k => (o.sets k).getD (v k)

/--
A switch of its own that turns the setting off has a switch for it in a bundle
behind it, and none of its own.
-/
def Overtaken (k : Setting) (occs : List Occurrence) : Prop :=
  ∃ pre o post, occs = pre ++ o :: post ∧ o.bundled = false ∧ o.sets k = some false ∧
    (∃ o' ∈ post, o'.sets k ≠ none) ∧ ∀ o' ∈ post, o'.sets k ≠ none → o'.bundled = true

/-- The last switch about a setting decides it. -/
theorem foldl_applySwitch (occs : List Occurrence) (v : Setting → Bool) (k : Setting) :
    occs.foldl applySwitch v k = (last (fun o => Occurrence.sets o k) occs).getD (v k) := by
  rw [← foldl_getD]
  induction occs generalizing v with
  | nil => rfl
  | cons o occs ih => exact ih (applySwitch v o)

/-! ### The second pass

The second pass has lists of its own: of the arguments that are switches, and of
those that take the next argument.  What has to be seen is that these lists and the
grammar agree on every argument that is accepted.
-/

/-- The toggle the second pass has for a switch. -/
def Switch.toggle : Switch → Option LegacyToggle
  | .chroot => some (.chroot true)
  | .noChroot => some (.chroot false)
  | .symlinks => some (.symlinkCheck true)
  | .noSymlinks => some (.symlinkCheck false)
  | .vhost => some (.vhost true)
  | .noVhost => some (.vhost false)
  | .globalPasswd => some (.globalPasswd true)
  | .noGlobalPasswd => some (.globalPasswd false)
  | .debug => none
  | .legacyVersion => none

/-- The toggles of the switches that are arguments of their own. -/
def ownToggles (occs : List Occurrence) : List LegacyToggle :=
  (occs.filter fun o => !o.bundled).filterMap fun o => o.switch.toggle

theorem ownToggles_append (occs more : List Occurrence) :
    ownToggles (occs ++ more) = ownToggles occs ++ ownToggles more := by
  rw [ownToggles, List.filter_append, List.filterMap_append]
  rfl

/-- The second pass knows the long arguments, and which of them take values. -/
theorem long_known : ∀ p ∈ longArgs,
    toggleArgs.lookup ('-' :: '-' :: p.1) = p.2.bind Switch.toggle ∧
      valueArgs.contains ('-' :: '-' :: p.1) = p.2.isNone := by decide

theorem short_known : ∀ p ∈ shortArgs,
    toggleArgs.lookup ['-', p.1] = p.2.bind Switch.toggle ∧
      valueArgs.contains ['-', p.1] = p.2.isNone := by decide

/-- An argument of neither form is none of those it looks for. -/
def LooksFor (arg : Str) : Prop := arg ∈ toggleArgs.map Prod.fst ∨ arg ∈ valueArgs

theorem form_of_looksFor {arg : Str} (h : LooksFor arg) :
    arg.head? = some '-' ∧ '=' ∉ arg ∧ (arg.tail.head? = some '-' ∨ arg.length = 2) ∧ arg ≠ ['-'] := by
  have hall : ∀ a ∈ toggleArgs.map Prod.fst ++ valueArgs,
      a.head? = some '-' ∧ '=' ∉ a ∧ (a.tail.head? = some '-' ∨ a.length = 2) ∧ a ≠ ['-'] := by
    decide
  exact hall arg (List.mem_append.mpr h)

theorem mem_of_lookup {α β : Type} [BEq α] [LawfulBEq α] {l : List (α × β)} {a : α} {b : β}
    (h : l.lookup a = some b) : (a, b) ∈ l := by
  obtain ⟨pre, post, rfl, -⟩ := List.lookup_eq_some_iff.mp h
  exact List.mem_append_right pre List.mem_cons_self

theorem not_found {arg : Str} (h : ¬ LooksFor arg) :
    toggleArgs.lookup arg = none ∧ valueArgs.contains arg = false := by
  constructor
  · refine List.lookup_eq_none_iff.mpr fun p hp => bne_iff_ne.mpr ?_
    rintro rfl
    exact h (.inl (List.mem_map_of_mem hp))
  · rw [Bool.eq_false_iff]
    exact fun hc => h (.inr (List.contains_iff_mem.mp hc))

/-- What the second pass makes of an argument fits what the grammar does. -/
structure Fits (arg : Str) (r : List Occurrence × Bool) : Prop where
  toggle : (toggleArgs.lookup arg).toList = ownToggles r.1
  value : valueArgs.contains arg = true → r.2 = true

theorem Fits.of_not {arg : Str} {r : List Occurrence × Bool} (h : ¬ LooksFor arg)
    (hown : ownToggles r.1 = []) : Fits arg r := by
  obtain ⟨htoggle, hvalue⟩ := not_found h
  refine ⟨by rw [htoggle, hown]; rfl, fun hc => ?_⟩
  rw [hvalue] at hc
  cases hc

/-- An argument of its own that the second pass knows. -/
theorem Fits.of_known {arg : Str} {entry : Option Switch}
    (htoggle : toggleArgs.lookup arg = entry.bind Switch.toggle)
    (hvalue : valueArgs.contains arg = entry.isNone) :
    Fits arg (entry.toList.map (⟨·, false⟩), entry.isNone) := by
  refine ⟨?_, fun hc => hvalue.symm.trans hc⟩
  rw [htoggle]
  cases entry with
  | none => rfl
  | some s => cases s <;> rfl

/-- It agrees on long arguments. -/
theorem fits_long {body : Str} {r : Option Switch × Bool} (h : readLong body = some r) :
    Fits ('-' :: '-' :: body) (r.1.toList.map (⟨·, false⟩), r.2) := by
  unfold readLong at h
  cases hsplit : splitOnce '=' body with
  | none =>
      rw [hsplit] at h
      simp only [Option.elim_none] at h
      cases hlook : longArgs.lookup body with
      | none =>
          rw [hlook] at h
          cases h
      | some entry =>
          rw [hlook] at h
          obtain ⟨htoggle, hvalue⟩ := long_known _ (mem_of_lookup hlook)
          cases entry with
          | none =>
              obtain rfl := Option.some.inj h
              exact Fits.of_known htoggle hvalue
          | some s =>
              simp only [Bool.false_eq_true, if_false] at h
              obtain rfl := Option.some.inj h
              exact Fits.of_known htoggle hvalue
  | some parts =>
      have hmem : '=' ∈ body := by
        by_contra hmem
        rw [splitOnce_eq_none hmem] at hsplit
        cases hsplit
      have hnot : ¬ LooksFor ('-' :: '-' :: body) := fun hl =>
        (form_of_looksFor hl).2.1 (List.mem_cons_of_mem _ (List.mem_cons_of_mem _ hmem))
      rw [hsplit] at h
      simp only [Option.elim_some, if_true] at h
      refine Fits.of_not hnot ?_
      cases hlook : longArgs.lookup parts.1 with
      | none =>
          rw [hlook] at h
          cases h
      | some entry =>
          rw [hlook] at h
          cases entry with
          | none =>
              obtain rfl := Option.some.inj h
              rfl
          | some s => cases h

theorem ownToggles_bundled (l : List Switch) : ownToggles (l.map (⟨·, true⟩)) = [] := by
  unfold ownToggles
  rw [List.filter_eq_nil_iff.mpr]
  · rfl
  · intro o ho
    obtain ⟨s, -, rfl⟩ := List.mem_map.mp ho
    exact Bool.false_ne_true

/-- And on bundles, of which it sees none. -/
theorem fits_bundle {c : Char} {cs : Str} (hc : c ≠ '-') {r : List Switch × Bool}
    (h : readBundle (c :: cs) = some r) :
    Fits ('-' :: c :: cs) (r.1.map (⟨·, decide ((c :: cs).length ≠ 1)⟩), r.2) := by
  cases cs with
  | cons d cs =>
      have hbundled : decide ((c :: d :: cs).length ≠ 1) = true := by simp
      rw [hbundled]
      refine Fits.of_not (fun hl => ?_) (ownToggles_bundled r.1)
      rcases (form_of_looksFor hl).2.2.1 with hdash | hlen
      · exact hc (Option.some.inj hdash)
      · simp at hlen
  | nil =>
      unfold readBundle at h
      cases hlook : shortArgs.lookup c with
      | none =>
          rw [hlook] at h
          cases h
      | some entry =>
          rw [hlook] at h
          obtain ⟨htoggle, hvalue⟩ := short_known _ (mem_of_lookup hlook)
          cases entry with
          | none =>
              obtain rfl := Option.some.inj h
              exact Fits.of_known htoggle hvalue
          | some s =>
              obtain rfl := Option.some.inj h
              exact Fits.of_known htoggle hvalue

/-- So it agrees on every argument. -/
theorem fits_arg {arg : Str} {r : List Occurrence × Bool} (h : readArg arg = some r) : Fits arg r := by
  unfold readArg at h
  split at h
  · obtain ⟨r', hread, rfl⟩ := Option.map_eq_some_iff.mp h
    exact fits_long hread
  · rename_i bundle hnot
    obtain ⟨r', hread, rfl⟩ := Option.map_eq_some_iff.mp h
    cases bundle with
    | nil =>
        obtain rfl := Option.some.inj hread
        exact Fits.of_not (fun hl => (form_of_looksFor hl).2.2.2 rfl) rfl
    | cons c cs => exact fits_bundle (fun hc => hnot cs (by rw [hc])) hread
  · cases h

theorem not_looksFor_of_isValue {arg : Str} (h : isValue arg = true) : ¬ LooksFor arg := by
  intro hl
  obtain ⟨hhead, -, -, hne⟩ := form_of_looksFor hl
  rw [isValue, hhead] at h
  simp [hne] at h

/-- How arguments are read: as a value, as the end, or as an argument and those behind it. -/
theorem readArgs_cons {pending : Bool} {arg : Str} {args : List Str} {occs : List Occurrence}
    (h : readArgs pending (arg :: args) = some occs) :
    (pending = true ∧ isValue arg = true ∧ readArgs false args = some occs) ∨
      (pending = false ∧ isValue arg = false ∧ arg = "--".toList ∧ args = [] ∧ occs = []) ∨
      (pending = false ∧ isValue arg = false ∧ arg ≠ "--".toList ∧
        ∃ r more, readArg arg = some r ∧ readArgs r.2 args = some more ∧ occs = r.1 ++ more) := by
  cases pending with
  | true =>
      rw [readArgs] at h
      split at h
      · rename_i hvalue
        exact .inl ⟨rfl, hvalue, h⟩
      · cases h
  | false =>
      rw [readArgs] at h
      split at h
      · cases h
      rename_i hvalue
      replace hvalue : isValue arg = false := Bool.not_eq_true _ ▸ hvalue
      split at h
      · rename_i hend
        split at h
        · rename_i hargs
          exact .inr (.inl ⟨rfl, hvalue, hend, hargs, (Option.some.inj h).symm⟩)
        · cases h
      · rename_i hend
        obtain ⟨r, hr, hrest⟩ := Option.bind_eq_some_iff.mp h
        obtain ⟨more, hmore, rfl⟩ := Option.map_eq_some_iff.mp hrest
        exact .inr (.inr ⟨rfl, hvalue, hend, r, more, hr, hmore, rfl⟩)

theorem readArgs_nil {pending : Bool} {occs : List Occurrence} (h : readArgs pending [] = some occs) :
    occs = [] := by
  unfold readArgs at h
  split at h
  · cases h
  · exact (Option.some.inj h).symm

/--
**The second pass finds the switches that are arguments of their own**, in their
order, and no value is one.

What comes after an option that takes a value is that value, even if it looks like a
switch, and both the parser and the second pass skip it.
-/
theorem togglesFrom_eq {args : List Str} {skip pending : Bool} {occs : List Occurrence}
    (hskip : skip = true → pending = true) (h : readArgs pending args = some occs) :
    togglesFrom skip args = ownToggles occs := by
  induction args generalizing skip pending occs with
  | nil =>
      rw [readArgs_nil h]
      cases skip <;> rfl
  | cons arg args ih =>
      rcases readArgs_cons h with ⟨rfl, hvalue, hrest⟩ | ⟨rfl, -, rfl, rfl, rfl⟩ |
        ⟨rfl, -, -, r, more, hr, hmore, rfl⟩
      · have hnext : togglesFrom false args = ownToggles occs := ih (fun hc => (by cases hc)) hrest
        cases skip with
        | true => exact hnext
        | false =>
            obtain ⟨htoggle, htakes⟩ := not_found (not_looksFor_of_isValue hvalue)
            rw [togglesFrom, htoggle, htakes]
            exact hnext
      · obtain rfl : skip = false := Bool.eq_false_iff.mpr fun hc => Bool.false_ne_true (hskip hc)
        decide
      · obtain rfl : skip = false := Bool.eq_false_iff.mpr fun hc => Bool.false_ne_true (hskip hc)
        have hfits := fits_arg hr
        rw [ownToggles_append, ← hfits.toggle, togglesFrom]
        cases toggleArgs.lookup arg with
        | some toggle =>
            have hnext : togglesFrom false args = ownToggles more := ih (fun hc => (by cases hc)) hmore
            rw [← hnext]
            rfl
        | none =>
            rw [← ih hfits.value hmore]
            rfl

/-! ### Bundles

A switch can stand in a bundle only if it has a short form, and each of these turns
its setting on.
-/

theorem switch_of_short : ∀ p ∈ shortArgs,
    p.2 ∈ [none, some .chroot, some .vhost, some .debug, some .legacyVersion] := by decide

/-- A bundle turns settings on. -/
theorem sets_of_short {c : Char} {s : Switch} (h : shortArgs.lookup c = some (some s)) (k : Setting) :
    s.sets k = none ∨ s.sets k = some true := by
  have hmem := switch_of_short _ (mem_of_lookup h)
  simp only [List.mem_cons, reduceCtorEq, Option.some.injEq, List.not_mem_nil, or_false, false_or] at hmem
  rcases hmem with rfl | rfl | rfl | rfl <;> cases k <;> simp [Switch.sets]

theorem sets_of_bundle {cs : Str} {r : List Switch × Bool} (h : readBundle cs = some r) (k : Setting) :
    ∀ s ∈ r.1, s.sets k = none ∨ s.sets k = some true := by
  induction cs generalizing r with
  | nil =>
      obtain rfl := Option.some.inj h
      intro s hs
      cases hs
  | cons c cs ih =>
      unfold readBundle at h
      cases hlook : shortArgs.lookup c with
      | none =>
          rw [hlook] at h
          cases h
      | some entry =>
          rw [hlook] at h
          cases entry with
          | none =>
              obtain rfl := Option.some.inj h
              intro s hs
              cases hs
          | some s =>
              obtain ⟨r', hread, rfl⟩ := Option.map_eq_some_iff.mp h
              intro s' hs'
              rcases List.mem_cons.mp hs' with rfl | hs'
              · exact sets_of_short hlook k
              · exact ih hread s' hs'

theorem sets_of_arg {arg : Str} {r : List Occurrence × Bool} (h : readArg arg = some r) {o : Occurrence}
    (ho : o ∈ r.1) (hb : o.bundled = true) (k : Setting) : o.sets k = none ∨ o.sets k = some true := by
  unfold readArg at h
  split at h
  · obtain ⟨r', -, rfl⟩ := Option.map_eq_some_iff.mp h
    obtain ⟨s, -, rfl⟩ := List.mem_map.mp ho
    cases hb
  · obtain ⟨r', hread, rfl⟩ := Option.map_eq_some_iff.mp h
    obtain ⟨s, hs, rfl⟩ := List.mem_map.mp ho
    exact sets_of_bundle hread k s hs
  · cases h

theorem sets_of_bundled {args : List Str} {pending : Bool} {occs : List Occurrence}
    (h : readArgs pending args = some occs) {o : Occurrence} (ho : o ∈ occs) (hb : o.bundled = true)
    (k : Setting) : o.sets k = none ∨ o.sets k = some true := by
  induction args generalizing pending occs with
  | nil =>
      rw [readArgs_nil h] at ho
      cases ho
  | cons arg args ih =>
      rcases readArgs_cons h with ⟨-, -, hrest⟩ | ⟨-, -, -, -, rfl⟩ | ⟨-, -, -, r, more, hr, hmore, rfl⟩
      · exact ih hrest ho
      · cases ho
      · rcases List.mem_append.mp ho with ho | ho
        · exact sets_of_arg hr ho hb k
        · exact ih hmore ho

/-! ### The settings

`with_args` looks at the fields in an order of its own, so of two switches for one
setting it is not the last that decides there.
-/

theorem doChroot_withArgs (c : ServerConfig) (cli : Cli) :
    (c.withArgs cli).doChroot =
      if cli.noChroot then false else if cli.chroot then true else c.doChroot := by
  simp [ServerConfig.withArgs, apply_ite ServerConfig.doChroot]

theorem noSymlinkCheck_withArgs (c : ServerConfig) (cli : Cli) :
    (c.withArgs cli).noSymlinkCheck =
      if cli.noSymlinks then true else if cli.symlinks then false
      else if cli.noChroot then false else if cli.chroot then true else c.noSymlinkCheck := by
  simp [ServerConfig.withArgs, apply_ite ServerConfig.noSymlinkCheck]

theorem vhost_withArgs (c : ServerConfig) (cli : Cli) :
    (c.withArgs cli).vhost = if cli.noVhost then false else if cli.vhost then true else c.vhost := by
  simp [ServerConfig.withArgs, apply_ite ServerConfig.vhost]

theorem globalPasswd_withArgs (c : ServerConfig) (cli : Cli) :
    (c.withArgs cli).globalPasswd =
      if cli.noGlobalPasswd then false else if cli.globalPasswd then true else c.globalPasswd := by
  simp [ServerConfig.withArgs, apply_ite ServerConfig.globalPasswd]

/-- A switch that turns the setting on does so unless one turns it off. -/
theorem withArgs_on {cli : Cli} {k : Setting} (hoff : ∀ s : Switch, s.sets k = some false → cli.has s = false)
    {s : Switch} (hs : s.sets k = some true) (hhas : cli.has s = true) (c : ServerConfig) :
    (c.withArgs cli).setting k = true := by
  cases k with
  | doChroot =>
      have hno : cli.noChroot = false := hoff .noChroot rfl
      have hon : cli.chroot = true := by cases s <;> first | exact hhas | cases hs
      show (c.withArgs cli).doChroot = true
      simp [doChroot_withArgs, hno, hon]
  | noSymlinkCheck =>
      have hno : cli.noChroot = false := hoff .noChroot rfl
      have hno' : cli.symlinks = false := hoff .symlinks rfl
      have hon : cli.chroot = true ∨ cli.noSymlinks = true := by
        cases s <;> first | exact .inl hhas | exact .inr hhas | cases hs
      show (c.withArgs cli).noSymlinkCheck = true
      rcases hon with hon | hon <;> simp [noSymlinkCheck_withArgs, hno, hno', hon]
  | vhost =>
      have hno : cli.noVhost = false := hoff .noVhost rfl
      have hon : cli.vhost = true := by cases s <;> first | exact hhas | cases hs
      show (c.withArgs cli).vhost = true
      simp [vhost_withArgs, hno, hon]
  | globalPasswd =>
      have hno : cli.noGlobalPasswd = false := hoff .noGlobalPasswd rfl
      have hon : cli.globalPasswd = true := by cases s <;> first | exact hhas | cases hs
      show (c.withArgs cli).globalPasswd = true
      simp [globalPasswd_withArgs, hno, hon]

theorem withArgs_silent {cli : Cli} {k : Setting} (h : ∀ s : Switch, s.sets k ≠ none → cli.has s = false)
    (c : ServerConfig) : (c.withArgs cli).setting k = c.setting k := by
  have hnot : ∀ s : Switch, (s.sets k).isSome = true → cli.has s = false := fun s hs =>
    h s (Option.isSome_iff_ne_none.mp hs)
  cases k with
  | doChroot =>
      have hno : cli.noChroot = false := hnot .noChroot rfl
      have hon : cli.chroot = false := hnot .chroot rfl
      show (c.withArgs cli).doChroot = c.doChroot
      simp [doChroot_withArgs, hno, hon]
  | noSymlinkCheck =>
      have hno : cli.noChroot = false := hnot .noChroot rfl
      have hon : cli.chroot = false := hnot .chroot rfl
      have hno' : cli.symlinks = false := hnot .symlinks rfl
      have hon' : cli.noSymlinks = false := hnot .noSymlinks rfl
      show (c.withArgs cli).noSymlinkCheck = c.noSymlinkCheck
      simp [noSymlinkCheck_withArgs, hno, hon, hno', hon']
  | vhost =>
      have hno : cli.noVhost = false := hnot .noVhost rfl
      have hon : cli.vhost = false := hnot .vhost rfl
      show (c.withArgs cli).vhost = c.vhost
      simp [vhost_withArgs, hno, hon]
  | globalPasswd =>
      have hno : cli.noGlobalPasswd = false := hnot .noGlobalPasswd rfl
      have hon : cli.globalPasswd = false := hnot .globalPasswd rfl
      show (c.withArgs cli).globalPasswd = c.globalPasswd
      simp [globalPasswd_withArgs, hno, hon]

/-- What a toggle sets. -/
def LegacyToggle.sets : LegacyToggle → Setting → Option Bool
  | .chroot on, .doChroot => some on
  | .chroot on, .noSymlinkCheck => some on
  | .symlinkCheck on, .noSymlinkCheck => some !on
  | .vhost on, .vhost => some on
  | .globalPasswd on, .globalPasswd => some on
  | _, _ => none

theorem toggle_sets (s : Switch) (k : Setting) : (s.toggle.bind fun t => t.sets k) = s.sets k := by
  cases s <;> cases k <;> rfl

theorem applyToggle_setting (c : ServerConfig) (t : LegacyToggle) (k : Setting) :
    (c.applyToggle t).setting k = (t.sets k).getD (c.setting k) := by
  rcases t with on | on | on | on <;> cases on <;> cases k <;> rfl

/-- The toggles are applied in their order. -/
theorem applyLegacyToggleOrder_setting (c : ServerConfig) (events : List LegacyToggle) (k : Setting) :
    (c.applyLegacyToggleOrder events).setting k =
      (last (fun t => LegacyToggle.sets t k) events).getD (c.setting k) := by
  rw [← foldl_getD]
  induction events generalizing c with
  | nil => rfl
  | cons t events ih =>
      rw [List.foldl_cons, ← applyToggle_setting]
      exact ih (c.applyToggle t)

/-- The switches that are arguments of their own. -/
def own (occs : List Occurrence) : List Occurrence := occs.filter fun o => !o.bundled

theorem last_ownToggles (occs : List Occurrence) (k : Setting) :
    last (fun t => LegacyToggle.sets t k) (ownToggles occs) = last (fun o => Occurrence.sets o k) (own occs) := by
  unfold last ownToggles
  rw [List.filterMap_filterMap]
  simp only [toggle_sets]
  rfl

/-! ### The first pass

Rewriting must not change which argument is whose value.  It could only where a value
looks like an old spelling, and no value begins with a dash.
-/

/-- What is behind an argument is read too. -/
theorem readArgs_tail {pending : Bool} {arg : Str} {args : List Str} {occs : List Occurrence}
    (h : readArgs pending (arg :: args) = some occs) : ∃ next more, readArgs next args = some more := by
  rcases readArgs_cons h with ⟨-, -, hrest⟩ | ⟨-, -, -, rfl, -⟩ | ⟨-, -, -, r, more, -, hmore, -⟩
  · exact ⟨false, occs, hrest⟩
  · exact ⟨false, [], rfl⟩
  · exact ⟨r.2, more, hmore⟩

theorem spelling_of_isValue {arg : Str} (h : isValue arg = true) : spelling arg = arg := by
  have hall : ∀ p ∈ legacySpellings, isValue p.1 = false := by decide
  have hnone : legacySpellings.lookup arg = none := by
    refine List.lookup_eq_none_iff.mpr fun p hp => bne_iff_ne.mpr ?_
    rintro rfl
    rw [hall p hp] at h
    cases h
  rw [spelling, hnone]
  rfl

/-- What follows `-h` and `-dd` is a value where the arguments are accepted. -/
theorem isValue_of_taken {arg next : Str} (harg : arg = "-h".toList ∨ arg = "-dd".toList) {pending : Bool}
    {args : List Str} {occs : List Occurrence}
    (h : readArgs pending (spelling arg :: next :: args) = some occs) :
    isValue next = true ∧ ∃ more, readArgs false args = some more := by
  have hspelled : isValue (spelling arg) = false ∧ spelling arg ≠ "--".toList ∧
      readArg (spelling arg) = some ([], true) := by
    rcases harg with rfl | rfl <;> decide
  obtain ⟨hvalue, hend, hread⟩ := hspelled
  rcases readArgs_cons h with ⟨-, hval, -⟩ | ⟨-, -, hstop, -, -⟩ | ⟨-, -, -, r, more, hr, hmore, -⟩
  · rw [hvalue] at hval
    cases hval
  · exact absurd hstop hend
  · obtain rfl := Option.some.inj (hread.symm.trans hr)
    rcases readArgs_cons hmore with ⟨-, hnext, hrest⟩ | ⟨hfalse, -⟩ | ⟨hfalse, -⟩
    · exact ⟨hnext, more, hrest⟩
    · cases hfalse
    · cases hfalse

/--
**The first pass rewrites accepted arguments one by one**, so it keeps their order.

An option whose value follows is rewritten together with it, so the rewriting is one
of arguments only when they were accepted.
-/
theorem normalizeLegacyArgs_eq_map {args : List Str} {pending : Bool} {occs : List Occurrence}
    (h : readArgs pending (normalizeLegacyArgs args) = some occs) :
    normalizeLegacyArgs args = args.map spelling := by
  induction args using normalizeLegacyArgs.induct generalizing pending occs with
  | case1 => rfl
  | case2 arg => rfl
  | case3 arg next args harg ih =>
      rw [normalizeLegacyArgs, if_pos harg] at h ⊢
      obtain ⟨hnext, more, hmore⟩ := isValue_of_taken harg h
      rw [ih hmore, List.map_cons, List.map_cons, spelling_of_isValue hnext]
  | case4 arg next args harg ih =>
      rw [normalizeLegacyArgs, if_neg harg] at h ⊢
      obtain ⟨pending', more, hmore⟩ := readArgs_tail h
      rw [ih hmore]
      rfl

/-- The switches are those of the arguments as they stand, in the spelling `clap` knows. -/
theorem switchesOf_eq {prog : Str} {args : List Str} {occs : List Occurrence}
    (hprog : ¬ (prog = "-h".toList ∨ prog = "-dd".toList))
    (h : readArgs false ((normalizeLegacyArgs (prog :: args)).drop 1) = some occs) :
    switchesOf (prog :: args) = (readArgs false (args.map spelling)).getD [] := by
  have hdrop : (normalizeLegacyArgs (prog :: args)).drop 1 = normalizeLegacyArgs args := by
    cases args with
    | nil => rfl
    | cons next args =>
        rw [normalizeLegacyArgs, if_neg hprog]
        rfl
  rw [hdrop] at h
  rw [switchesOf, hdrop, normalizeLegacyArgs_eq_map h]

/-! ### Main result

The switches on their own come last in the code, so one in a bundle is overruled by
any that is not.
-/

section

variable {occs : List Occurrence} {k : Setting}

/-- What the last switch of its own says stands, unless one in a bundle is behind it. -/
theorem last_of_own (hbundled : ∀ o ∈ occs, o.bundled = true → o.sets k = none ∨ o.sets k = some true)
    {b : Bool} (h : last (fun o => Occurrence.sets o k) (own occs) = some b) :
    last (fun o => Occurrence.sets o k) occs = some b ∨
      last (fun o => Occurrence.sets o k) occs = some true ∧ (b = false → Overtaken k occs) := by
  obtain ⟨pre, o, post, rfl, hown, hsays, hpost⟩ := exists_last h
  have hown' : o.bundled = false := by simpa using hown
  have hbehind : ∀ x ∈ post, x.sets k ≠ none → x.bundled = true := by
    intro x hx hne
    by_contra hnot
    exact hne (hpost x hx (by simpa using hnot))
  have hall : last (fun o => Occurrence.sets o k) (pre ++ o :: post) =
      (last (fun o => Occurrence.sets o k) post).or (some b) := by
    rw [← List.singleton_append, ← List.append_assoc, last_append, last_append, last_singleton, hsays]
    rfl
  rw [hall]
  by_cases hex : ∃ x ∈ post, x.sets k ≠ none
  · right
    have hon : last (fun o => Occurrence.sets o k) post = some true := by
      refine last_of_agree (fun x hx => ?_) hex
      by_cases hx' : x.sets k = none
      · exact .inl hx'
      · exact hbundled x (by simp [hx]) (hbehind x hx hx')
    rw [hon]
    refine ⟨rfl, ?_⟩
    rintro rfl
    exact ⟨pre, o, post, rfl, hown', hsays, hex, hbehind⟩
  · left
    push Not at hex
    rw [last_eq_none_iff.mpr hex]
    rfl

/-- An overtaken switch is one of its own, and the settings differ. -/
theorem last_of_overtaken (hbundled : ∀ o ∈ occs, o.bundled = true → o.sets k = none ∨ o.sets k = some true)
    (h : Overtaken k occs) :
    last (fun o => Occurrence.sets o k) (own occs) = some false ∧
      last (fun o => Occurrence.sets o k) occs = some true := by
  obtain ⟨pre, o, post, rfl, hown, hsays, hex, hbehind⟩ := h
  constructor
  · have hsilent : last (fun o => Occurrence.sets o k) (own post) = none := by
      refine last_eq_none_iff.mpr fun x hx => ?_
      obtain ⟨hx, hxown⟩ := List.mem_filter.mp hx
      by_contra hne
      rw [hbehind x hx hne] at hxown
      cases hxown
    have hsplit : own (pre ++ o :: post) = own pre ++ [o] ++ own post := by
      unfold own
      rw [List.filter_append, List.filter_cons_of_pos (by simp [hown]), List.append_assoc,
        List.singleton_append]
    rw [hsplit, last_append, hsilent, Option.none_or, last_append, last_singleton, hsays]
    rfl
  · have hon : last (fun o => Occurrence.sets o k) post = some true := by
      refine last_of_agree (fun x hx => ?_) hex
      by_cases hx' : x.sets k = none
      · exact .inl hx'
      · exact hbundled x (by simp [hx]) (hbehind x hx hx')
    rw [← List.singleton_append, ← List.append_assoc, last_append, hon]
    rfl

/-- Where only bundles are about a setting, it is as the switches say. -/
theorem withArgs_setting {cli : Cli}
    (hbundled : ∀ o ∈ occs, o.bundled = true → o.sets k = none ∨ o.sets k = some true)
    (hhas : ∀ s, cli.has s = occs.any fun o => o.switch = s)
    (hown : last (fun o => Occurrence.sets o k) (own occs) = none) (c : ServerConfig) :
    (c.withArgs cli).setting k = (last (fun o => Occurrence.sets o k) occs).getD (c.setting k) := by
  have hagree : ∀ o ∈ occs, o.sets k = none ∨ o.sets k = some true := by
    intro o ho
    cases hb : o.bundled with
    | true => exact hbundled o ho hb
    | false => exact .inl (last_eq_none_iff.mp hown o (List.mem_filter.mpr ⟨ho, by rw [hb]; rfl⟩))
  have hmem : ∀ s, cli.has s = true → ∃ o ∈ occs, o.switch = s := by
    intro s hs
    rw [hhas, List.any_eq_true] at hs
    obtain ⟨o, ho, hswitch⟩ := hs
    exact ⟨o, ho, of_decide_eq_true hswitch⟩
  by_cases hex : ∃ o ∈ occs, o.sets k ≠ none
  · rw [last_of_agree hagree hex]
    obtain ⟨o, ho, hne⟩ := hex
    have hon : o.switch.sets k = some true := (hagree o ho).resolve_left hne
    refine withArgs_on (fun s hoff => ?_) hon ?_ c
    · by_contra hs
      obtain ⟨o', ho', rfl⟩ := hmem s (Bool.not_eq_false _ ▸ hs)
      rcases hagree o' ho' with hnone | hsome
      · exact absurd (hnone.symm.trans hoff) (by decide)
      · exact absurd (hsome.symm.trans hoff) (by decide)
    · rw [hhas, List.any_eq_true]
      exact ⟨o, ho, by simp⟩
  · push Not at hex
    rw [last_eq_none_iff.mpr hex]
    refine withArgs_silent (fun s hne => ?_) c
    by_contra hs
    obtain ⟨o, ho, rfl⟩ := hmem s (Bool.not_eq_false _ ▸ hs)
    exact hne (hex o ho)

theorem setting_iff {cli : Cli}
    (hbundled : ∀ o ∈ occs, o.bundled = true → o.sets k = none ∨ o.sets k = some true)
    (hhas : ∀ s, cli.has s = occs.any fun o => o.switch = s) (c : ServerConfig) :
    ((c.withArgs cli).applyLegacyToggleOrder (ownToggles occs)).setting k =
      occs.foldl applySwitch c.setting k ↔ ¬ Overtaken k occs := by
  rw [applyLegacyToggleOrder_setting, last_ownToggles, foldl_applySwitch]
  cases hown : last (fun o => Occurrence.sets o k) (own occs) with
  | none =>
      refine iff_of_true (withArgs_setting hbundled hhas hown c) fun hover => ?_
      rw [(last_of_overtaken hbundled hover).1] at hown
      cases hown
  | some b =>
      rw [Option.getD_some]
      constructor
      · intro heq hover
        obtain ⟨hoff, hon⟩ := last_of_overtaken hbundled hover
        rw [hon] at heq
        rw [hoff] at hown
        obtain rfl := Option.some.inj hown
        cases heq
      · intro hnot
        rcases last_of_own hbundled hown with hsame | ⟨hon, hover⟩
        · rw [hsame]
          rfl
        · rw [hon]
          by_contra hoff
          exact hnot (hover (Bool.not_eq_true _ ▸ hoff))

end

/-- What `main` serves with is configured so. -/
theorem configured_of_start {parse : List Str → Option Cli} {readFile : Str → Except Str Str}
    {raw : List Str} {config : ServerConfig} (h : start parse readFile raw = .ok config) :
    ∃ cli, parse (normalizeLegacyArgs raw) = some cli ∧
      configured readFile cli (normalizeLegacyArgs raw) = .ok config := by
  unfold start at h
  cases hparse : parse (normalizeLegacyArgs raw) with
  | none => simp [hparse] at h
  | some cli =>
      refine ⟨cli, rfl, ?_⟩
      simp only [hparse] at h
      split at h
      · cases h
      · cases hconfig : configured readFile cli (normalizeLegacyArgs raw) with
        | error e =>
            rw [hconfig] at h
            cases h
        | ok c =>
            rw [hconfig] at h
            cases h
            rfl

/--
**When the last switch wins.**  The settings are those of the configuration file, or
the defaults, after the switches in the order of the command line, exactly when no
switch in a bundle comes after one of its own that turns its setting off.

These are the settings `main` serves with, if it comes to that, and the switches are
those of the arguments as they were given, but for the spelling of the old ones.

The settings come from two passes: the parser reads every switch, in bundles too,
and knows no order, and the second pass knows the order and sees the switches that
stand alone.
-/
theorem last_wins_iff {parse : List Str → Option Cli} (hclap : ReadsSwitches parse)
    {readFile : Str → Except Str Str} {raw : List Str} {cli : Cli} {c config : ServerConfig}
    (hparse : parse (normalizeLegacyArgs raw) = some cli) (hfile : ServerConfig.fromFile readFile cli = .ok c)
    (hconfig : configured readFile cli (normalizeLegacyArgs raw) = .ok config) :
    (config.setting = (switchesOf raw).foldl applySwitch c.setting ↔
      ∀ k, ¬ Overtaken k (switchesOf raw)) ∧
    (∀ served, start parse readFile raw = .ok served → served = config) ∧
    ∀ prog args, raw = prog :: args → ¬ (prog = "-h".toList ∨ prog = "-dd".toList) →
      switchesOf raw = (readArgs false (args.map spelling)).getD [] := by
  obtain ⟨occs, hread, hhas⟩ := hclap _ _ hparse
  refine ⟨?_, ?_, ?_⟩
  rotate_left
  · intro served hserved
    obtain ⟨cli', hparse', hconfig'⟩ := configured_of_start hserved
    obtain rfl := Option.some.inj (hparse.symm.trans hparse')
    cases hconfig.symm.trans hconfig'
    rfl
  · rintro prog args rfl hprog
    exact switchesOf_eq hprog hread
  have hswitches : switchesOf raw = occs := by
    unfold switchesOf
    rw [hread]
    rfl
  have hresult : config = (c.withArgs cli).applyLegacyToggleOrder (ownToggles occs) := by
    unfold configured ServerConfig.fromCli legacyToggleEvents at hconfig
    rw [hfile, togglesFrom_eq (fun hc => hc) hread] at hconfig
    cases hconfig
    rfl
  rw [hswitches, hresult, funext_iff]
  exact forall_congr' fun k => setting_iff (fun o ho hb => sets_of_bundled hread ho hb k) hhas c

/-- The arguments as `clap` has them when only switches occur. -/
def Cli.ofSwitches (occs : List Occurrence) : Cli :=
  let has := fun s => occs.any fun o => o.switch = s
  { port := none, dir := none, chroot := has .chroot, noChroot := has .noChroot, dataDir := none,
    symlinks := has .symlinks, noSymlinks := has .noSymlinks, user := none, logfile := none,
    cgipat := none, charset := none, p3p := none, maxAge := none, noVhost := has .noVhost,
    vhost := has .vhost, globalPasswd := has .globalPasswd, noGlobalPasswd := has .noGlobalPasswd,
    configFile := none, debug := has .debug, throttleFile := none, hostname := none, pidfile := none,
    cgiLimit := none, legacyVersion := has .legacyVersion }

/-- `clap` on a command line of switches, each of which may occur once. -/
def switchesOnly (args : List Str) : Option Cli :=
  ((readArgs false (args.drop 1)).filter fun occs => (occs.map Occurrence.switch).Nodup).map Cli.ofSwitches

theorem readsSwitches_switchesOnly : ReadsSwitches switchesOnly := by
  intro args cli h
  obtain ⟨occs, hocc, rfl⟩ := Option.map_eq_some_iff.mp h
  refine ⟨occs, (Option.filter_eq_some_iff.mp hocc).1, fun s => ?_⟩
  cases s <;> rfl

/-- A bundle with a switch, and then the other way. -/
def bundleFirst : List Str := ["thttpd", "-Dr", "-nor", "-nov", "-v"].map String.toList

/-- The other order. -/
def bundleLast : List Str := ["thttpd", "-nor", "-Dr"].map String.toList

def noFiles (_ : Str) : Except Str Str := .error []

theorem last_wins_bundle_first :
    ∃ config, configured noFiles (Cli.ofSwitches (switchesOf bundleFirst)) (normalizeLegacyArgs bundleFirst) =
        .ok config ∧
      config.setting = (switchesOf bundleFirst).foldl applySwitch ServerConfig.initial.setting := by
  have hparse : switchesOnly (normalizeLegacyArgs bundleFirst) =
      some (Cli.ofSwitches (switchesOf bundleFirst)) := by decide +kernel
  have hfile : ServerConfig.fromFile noFiles (Cli.ofSwitches (switchesOf bundleFirst)) = .ok .initial := rfl
  have hconfig : configured noFiles (Cli.ofSwitches (switchesOf bundleFirst))
      (normalizeLegacyArgs bundleFirst) =
        .ok { ServerConfig.initial with vhost := true, daemonize := false } := by decide +kernel
  refine ⟨_, hconfig, (last_wins_iff readsSwitches_switchesOnly hparse hfile hconfig).1.mpr fun k hover => ?_⟩
  have hbundled : ∀ o ∈ switchesOf bundleFirst, o.bundled = true → o.sets k = none ∨ o.sets k = some true := by
    cases k <;> decide +kernel
  obtain ⟨hoff, hon⟩ := last_of_overtaken hbundled hover
  revert hoff hon
  cases k <;> decide +kernel

/--
**A switch in a bundle does not win.**  The program is told to change its root last,
and does not.
-/
theorem last_loses_bundle_last :
    ∃ cli config, switchesOnly (normalizeLegacyArgs bundleLast) = some cli ∧
      ServerConfig.fromFile noFiles cli = .ok .initial ∧
      configured noFiles cli (normalizeLegacyArgs bundleLast) = .ok config ∧ config.doChroot = false ∧
      config.setting ≠ (switchesOf bundleLast).foldl applySwitch ServerConfig.initial.setting := by
  refine ⟨Cli.ofSwitches (switchesOf bundleLast), { ServerConfig.initial with daemonize := false },
    by decide +kernel, rfl, by decide +kernel, rfl, fun h => ?_⟩
  have hroot := congrFun h .doChroot
  revert hroot
  decide +kernel

end Thttpd.Config
