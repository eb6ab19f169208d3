/-
Patterns mean what they are said to mean.

The matcher moves two cursors and, at a star, tries the rest of the pattern at every place
the star may end.  Each step of it reads one token off the pattern, so it matches exactly
what the tokens match, and so does the legacy matcher, which tries the same places from
the other end.

The meaning is in the library (`Lib.Glob`): four kinds of tokens, and for each of
them which bytes it takes.  A pattern is read into tokens from its left, and the two
matchers are then compared with that reading and not with each other, although one
of them tries its places forwards and the other backwards.
-/
import Thttpd.Http.Match
import Thttpd.Legacy.Match
import Thttpd.Lib.Split

namespace Thttpd

open Text

/-- The tokens of a pattern, read from the left; two stars are one token. -/
def tokens : Bytes → List (Glob.Token UInt8)
  | [] => []
  | 42 :: 42 :: p => .globstar :: tokens p
  | 42 :: p => .star :: tokens p
  | 63 :: p => .one :: tokens p
  | c :: p => .lit c :: tokens p

/-- The bytes of a file name match a pattern without alternatives. -/
abbrev Matches (p f : Bytes) : Prop := Glob.Matches slashByte (tokens p) f

/-! ### Stars

A star stands for bytes without a slash and two stars for any.  The loop over the
places where it may end tries all there are, so it finds one exactly when there is
one.
-/

/-- Two stars may end anywhere. -/
theorem anySuffix_iff {f : Bytes → Bool} {bs : Bytes} :
    anySuffix f bs = true ↔ ∃ run rest, bs = run ++ rest ∧ f rest = true := by
  induction bs with
  | nil => simp [anySuffix]
  | cons b bs ih =>
      rw [anySuffix, Bool.or_eq_true, ih]
      constructor
      · rintro (h | ⟨run, rest, rfl, h⟩)
        · exact ⟨[], b :: bs, rfl, h⟩
        · exact ⟨b :: run, rest, rfl, h⟩
      · rintro ⟨run, rest, heq, h⟩
        cases run with
        | nil =>
            rw [List.nil_append] at heq
            exact .inl (heq ▸ h)
        | cons c run =>
            rw [List.cons_append, List.cons.injEq] at heq
            exact .inr ⟨run, rest, heq.2, h⟩

/-- One star ends before the next slash. -/
theorem anySuffixInName_iff {f : Bytes → Bool} {bs : Bytes} :
    anySuffixInName f bs = true ↔
      ∃ run rest, bs = run ++ rest ∧ slashByte ∉ run ∧ f rest = true := by
  induction bs with
  | nil => simp [anySuffixInName]
  | cons b bs ih =>
      rw [anySuffixInName, Bool.or_eq_true, Bool.and_eq_true, ih, bne_iff_ne]
      constructor
      · rintro (h | ⟨hb, run, rest, rfl, hrun, h⟩)
        · exact ⟨[], b :: bs, rfl, by simp, h⟩
        · refine ⟨b :: run, rest, rfl, ?_, h⟩
          intro hmem
          rcases List.mem_cons.mp hmem with heq | hmem
          · exact hb heq.symm
          · exact hrun hmem
      · rintro ⟨run, rest, heq, hrun, h⟩
        cases run with
        | nil =>
            rw [List.nil_append] at heq
            exact .inl (heq ▸ h)
        | cons c run =>
            rw [List.cons_append, List.cons.injEq] at heq
            refine .inr ⟨?_, run, rest, heq.2, fun hmem => hrun (List.mem_cons_of_mem c hmem), h⟩
            intro hb
            exact hrun (by rw [← heq.1, hb]; exact List.mem_cons_self)

/-! ### The matcher, token by token

The cases are those of the first token.  A star that ends the pattern is decided
without a search, which is right as nothing has to follow it.
-/

theorem head?_ne_star {p : Bytes} (h : ∀ p', p = 42 :: p' → False) : p.head? ≠ some 42 := by
  intro hhead
  obtain ⟨p', rfl⟩ := List.head?_eq_some_iff.mp hhead
  exact h p' rfl

section Steps

variable {p f : Bytes}

/-- A pattern that ends in two stars needs no search. -/
theorem matchSingle_globstar :
    matchSingle (42 :: 42 :: p) f = true ↔
      ∃ run rest, f = run ++ rest ∧ matchSingle p rest = true := by
  cases p with
  | nil =>
      rw [matchSingle]
      exact iff_of_true rfl ⟨f, [], by simp, rfl⟩
  | cons c p =>
      rw [matchSingle, anySuffix_iff]
      simp

/-- A pattern that ends in a star only asks for a slash. -/
theorem matchSingle_star (hp : p.head? ≠ some 42) :
    matchSingle (42 :: p) f = true ↔
      ∃ run rest, f = run ++ rest ∧ slashByte ∉ run ∧ matchSingle p rest = true := by
  cases p with
  | nil =>
      rw [matchSingle, Bool.not_eq_true', List.contains_eq_mem, decide_eq_false_iff_not]
      constructor
      · intro h
        exact ⟨f, [], by simp, h, rfl⟩
      · rintro ⟨run, rest, rfl, hrun, hrest⟩
        rw [matchSingle, List.isEmpty_iff] at hrest
        rwa [hrest, List.append_nil]
  | cons c p =>
      have hc : c ≠ 42 := fun heq => hp (by simp [heq])
      rw [matchSingle, anySuffixInName_iff]
      all_goals simp [hc]

theorem matchSingle_lit {c b : UInt8} (hstar : c ≠ 42) (hone : c ≠ 63) :
    matchSingle (c :: p) (b :: f) = true ↔ c = b ∧ matchSingle p f = true := by
  rw [matchSingle]
  · simp
  all_goals simp_all

/-- Where the name ends, only a star goes on. -/
theorem matchSingle_nil {c : UInt8} (hstar : c ≠ 42) : matchSingle (c :: p) [] = false := by
  by_cases hone : c = 63
  · rw [hone, matchSingle]
  · rw [matchSingle]
    all_goals simp_all

end Steps

/--
**The matcher matches what the tokens of the pattern match.**

Induction along the tokens of the pattern; a star tries every split of what is left,
and the two kinds of stars differ in what such a split may pass over.
-/
theorem matchSingle_iff (p : Bytes) : ∀ f, matchSingle p f = true ↔ Matches p f := by
  induction p using tokens.induct with
  | case1 =>
      intro f
      rw [matchSingle, List.isEmpty_iff]
      exact Glob.matches_nil.symm
  | case2 p ih =>
      intro f
      rw [matchSingle_globstar]
      simp only [ih]
      exact Glob.matches_globstar.symm
  | case3 p hp ih =>
      intro f
      have hhead := head?_ne_star hp
      rw [matchSingle_star hhead]
      simp only [ih]
      unfold Matches
      rw [tokens, Glob.matches_star]
      exact hp
  | case4 p ih =>
      intro f
      cases f with
      | nil =>
          rw [matchSingle_nil (by decide)]
          exact iff_of_false (by simp) Glob.not_matches_one_nil
      | cons b f =>
          rw [matchSingle_one, ih]
          exact Glob.matches_one.symm
  | case5 c p hglob hstar hone ih =>
      intro f
      have hc : c ≠ 42 := hstar
      have hc' : c ≠ 63 := hone
      have htokens : tokens (c :: p) = .lit c :: tokens p := by
        rw [tokens]
        all_goals simp_all
      unfold Matches
      rw [htokens]
      cases f with
      | nil =>
          rw [matchSingle_nil hc]
          exact iff_of_false (by simp) Glob.not_matches_lit_nil
      | cons b f =>
          rw [matchSingle_lit hc hc', ih]
          exact Glob.matches_lit.symm

/-! ### The legacy matcher

The C function has one loop where this one has several branches, and goes through
the same tokens.
-/

section LegacySteps

open Legacy

variable {p f : Bytes}

theorem matchOne_globstar :
    matchOne (42 :: 42 :: p) f = true ↔ ∃ run rest, f = run ++ rest ∧ matchOne p rest = true := by
  rw [matchOne, Glob.tryDown_length_iff]

/-- A star, tried from the longest place. -/
theorem matchOne_star (hp : p.head? ≠ some 42) :
    matchOne (42 :: p) f = true ↔
      ∃ run rest, f = run ++ rest ∧ slashByte ∉ run ∧ matchOne p rest = true := by
  rw [matchOne, untilSlash, Glob.tryDown_takeWhile_iff]
  · intro a
    simp [slashByte]
  · rintro p' rfl
    exact hp rfl

theorem matchOne_nil {c : UInt8} (hc : c ≠ 42) : matchOne (c :: p) [] = false := by
  rw [matchOne]
  all_goals simp_all

end LegacySteps

/-- The legacy matcher agrees. -/
theorem matchOne_eq (p : Bytes) : ∀ f, Legacy.matchOne p f = matchSingle p f := by
  induction p using tokens.induct with
  | case1 =>
      intro f
      rfl
  | case2 p ih =>
      intro f
      rw [Bool.eq_iff_iff, matchOne_globstar, matchSingle_globstar]
      simp only [ih]
  | case3 p hp ih =>
      intro f
      have hhead := head?_ne_star hp
      rw [Bool.eq_iff_iff, matchOne_star hhead, matchSingle_star hhead]
      simp only [ih]
  | case4 p ih =>
      intro f
      cases f with
      | nil => rw [matchOne_nil (by decide), matchSingle_nil (by decide)]
      | cons b f => rw [Legacy.matchOne_cons (by decide), if_pos (.inl rfl), matchSingle_one, ih]
  | case5 c p hglob hstar hone ih =>
      intro f
      have hc : c ≠ 42 := hstar
      have hc' : c ≠ 63 := hone
      cases f with
      | nil => rw [matchOne_nil hc, matchSingle_nil hc]
      | cons b f =>
          rw [Legacy.matchOne_cons hc, Bool.eq_iff_iff, matchSingle_lit hc hc', ih]
          simp [hc']

/-! ### Alternatives

A pattern is cut at its bars before anything else is looked at, so an alternative
holds none.  The C server does that in bytes, and this one in characters.
-/

/-- A bar is a byte of its own, so it may be looked for in the bytes. -/
theorem splitOn_bar_asBytes (s : Str) : (asBytes s).splitOn 124 = (s.splitOn '|').map asBytes :=
  splitOn_asBytes (d := '|') (by decide) s

/-- The matcher on the bytes of a pattern and a file name. -/
def matchBytes (pattern filename : Bytes) : Bool :=
  (pattern.splitOn 124).any fun sub => matchSingle sub filename

theorem matchPattern_eq (pattern filename : Str) :
    matchPattern pattern filename = matchBytes (asBytes pattern) (asBytes filename) := by
  unfold matchPattern matchBytes
  rw [splitOn_bar_asBytes, List.any_map]
  rfl

/-- A string without a NUL is all read. -/
theorem cString_of_noNul {bs : Bytes} (h : (0 : UInt8) ∉ bs) : Legacy.cString bs = bs := by
  unfold Legacy.cString
  rw [List.takeWhile_eq_self_iff]
  intro b hb
  rw [bne_iff_ne]
  rintro rfl
  exact h hb

/-- The two matchers agree on strings. -/
theorem matchBytes_eq_legacy {p f : Bytes} (hp : (0 : UInt8) ∉ p) (hf : (0 : UInt8) ∉ f) :
    matchBytes p f = Legacy.match_ p f := by
  unfold matchBytes Legacy.match_
  rw [cString_of_noNul hp, cString_of_noNul hf]
  simp only [matchOne_eq]

/--
**Patterns have their declared meaning**, on texts and on any bytes, and it is the
one they have in the legacy server.

The legacy matcher works on texts that end at a zero, so the agreement is for texts
without one.
-/
theorem match_pattern_meaning :
    (∀ p f : Bytes, matchBytes p f = true ↔ ∃ alternative ∈ p.splitOn 124, Matches alternative f) ∧
    (∀ pattern filename : Str, matchPattern pattern filename = true ↔
      ∃ alternative ∈ (asBytes pattern).splitOn 124, Matches alternative (asBytes filename)) ∧
    (∀ p f : Bytes, (0 : UInt8) ∉ p → (0 : UInt8) ∉ f → matchBytes p f = Legacy.match_ p f) ∧
    ∀ pattern filename : Str, '\x00' ∉ pattern → '\x00' ∉ filename →
      matchPattern pattern filename = Legacy.match_ (asBytes pattern) (asBytes filename) := by
  have hmeaning : ∀ p f : Bytes, matchBytes p f = true ↔
      ∃ alternative ∈ p.splitOn 124, Matches alternative f := by
    intro p f
    unfold matchBytes
    rw [List.any_eq_true]
    simp only [matchSingle_iff]
  have hnul : ∀ {s : Str}, '\x00' ∉ s → (0 : UInt8) ∉ asBytes s := by
    intro s hs hmem
    exact hs (byteChar_mem_of_asBytes (by decide) hmem)
  refine ⟨hmeaning, ?_, fun p f hp hf => matchBytes_eq_legacy hp hf, ?_⟩
  · intro pattern filename
    rw [matchPattern_eq, hmeaning]
  · intro pattern filename hp hf
    rw [matchPattern_eq, matchBytes_eq_legacy (hnul hp) (hnul hf)]

/-- A CGI pattern with an empty alternative and three stars in a row. -/
theorem match_pattern_meaning_stars :
    matchPattern "|/cgi-bin/***.sh".toList "/cgi-bin/a/b.sh".toList =
        Legacy.match_ (asBytes "|/cgi-bin/***.sh".toList) (asBytes "/cgi-bin/a/b.sh".toList) ∧
      matchPattern "|/cgi-bin/***.sh".toList "/cgi-bin/a/b.sh".toList = true :=
  ⟨match_pattern_meaning.2.2.2 _ _ (by decide) (by decide), by decide +kernel⟩

end Thttpd
