/-
The passes of two normalizers.

The proxy's normalizer of response bodies was written after the harness's, with loops in
the place of regular expressions.  Each pass of either looks for a phrase, which is a literal
text and the run of a class of characters after it, and so each is the pass of a rule.  The
two passes the harness makes over paths do what a single pass would.

The two normalizers are written in different ways, one as loops that copy a
character at a time and one as regular expressions with a lazy or a greedy
repetition.  Once each pass is `Rewrite.run` of a rule, the language they were
written in is gone: what is left to compare is two rules, and the library says how a
run of a rule goes over a text that is put together of parts.
-/
import Thttpd.Harness.DiffEngine
import Thttpd.Migrate.Diff

namespace Thttpd.Migrate

open Text Rewrite

/-! ### The passes as rules

Six passes over port numbers, one over `PWD=` and one over paths for the proxy.  The
loops keep an index into the text; `regexReplaceFrom_drop` and
`normalizePathsFrom_drop` turn it into the rest of the text from there, on which the
run of a rule is defined.
-/

/-- A port number after a literal text. -/
def portWord (head : Str) : Phrase Char := ⟨head, Char.isDigit, true, head ++ "PORT".toList⟩

/-- The phrases that a port number follows, in the order of the passes. -/
def portWords : List (Phrase Char) :=
  ["SERVER_PORT=", "HTTP_HOST=127.0.0.1:", "Host: 127.0.0.1:", "Host=127.0.0.1:"].map fun head =>
    portWord head.toList

/-- The passes over port numbers. -/
def portPasses (s : Str) : Str := portWords.foldl (fun s w => run w.rule s) s

/-- The directory after `PWD=`. -/
def pwdWord : Phrase Char := ⟨"PWD=/".toList, (· != '\n'), true, "PWD=NORMALIZED".toList⟩

/-- The text the proxy looks for instead. -/
def pwdLiteral : Phrase Char := ⟨"PWD=/[^\n]*".toList, fun _ => false, false, "PWD=NORMALIZED".toList⟩

/-- A temporary directory, `head` and the characters after it. -/
def tempWord (head : Str) (some : Bool) : Phrase Char :=
  ⟨head, isIdentifier, some, "/tmp/thttpd_NORMALIZED".toList⟩

/-- A pytest directory, up to what ends its name. -/
def pytestWord (stops : Char → Bool) : Phrase Char :=
  ⟨pytest, fun c => !stops c, false, "/tmp/pytest_NORMALIZED".toList⟩

/-- What ends a pytest directory for the proxy, and for the harness. -/
def proxyStops (c : Char) : Bool := c == '/' || isAsciiWhitespace c
/-- For the harness all white space ends it. -/
def harnessStops (c : Char) : Bool := c == '/' || Harness.isSpace c

/-- The rule of the proxy's pass over paths. -/
def proxyPaths : Rule Char :=
  either (tempWord golden false).rule
    (either (tempWord diff false).rule (pytestWord proxyStops).rule)

/-- The rules of the harness's two passes over paths, in one. -/
def harnessPaths : Rule Char :=
  either (tempWord golden true).rule
    (either (tempWord diff true).rule (pytestWord harnessStops).rule)

theorem proper_proxyPaths : Proper proxyPaths :=
  (Phrase.proper (by decide)).either ((Phrase.proper (by decide)).either (Phrase.proper (by decide)))

theorem proper_harnessPaths : Proper harnessPaths :=
  (Phrase.proper (by decide)).either ((Phrase.proper (by decide)).either (Phrase.proper (by decide)))

/-- Behind a run the text goes on where the run stops. -/
theorem drop_runLength (p : Char → Bool) (t : Str) : t.drop (runLength p t) = t.dropWhile p := by
  have hsplit : t.takeWhile p ++ t.dropWhile p = t := List.takeWhile_append_dropWhile
  have hdrop : (t.takeWhile p ++ t.dropWhile p).drop (t.takeWhile p).length = t.dropWhile p :=
    List.drop_left
  rwa [hsplit] at hdrop

/-- The rest of a text after a head and a run, as the loop counts it. -/
theorem drop_head_run {head : Str} (hne : head ≠ []) {c : Char} {s t : Str} (hs : c :: s = head ++ t)
    (p : Char → Bool) :
    s.drop (head.length + runLength p ((c :: s).drop head.length) - 1) = t.dropWhile p := by
  have ht : (c :: s).drop head.length = t := by rw [hs, List.drop_left]
  have hlen : 0 < head.length := List.length_pos_iff.mpr hne
  obtain ⟨n, hn⟩ : ∃ n, head.length + runLength p t = n + 1 :=
    ⟨head.length + runLength p t - 1, by omega⟩
  have hcons : s.drop n = (c :: s).drop (head.length + runLength p t) := by
    rw [hn, List.drop_succ_cons]
  rw [ht, hn, Nat.add_sub_cancel, hcons, ← List.drop_drop, ht, drop_runLength]

theorem regexReplaceFrom_drop (head : Str) (tail : TailClass) (new : Str) (k : Nat) (s : Str) :
    regexReplaceFrom head tail new k s = regexReplaceFrom head tail new 0 (s.drop k) := by
  induction s generalizing k with
  | nil => simp [regexReplaceFrom]
  | cons c s ih =>
      cases k with
      | zero => rfl
      | succ k =>
          rw [regexReplaceFrom, ih, List.drop_succ_cons]

/-- The proxy's loop is the pass of a phrase. -/
theorem regexReplaceFrom_eq {head : Str} (hne : head ≠ []) (tail : TailClass) (new : Str) (s : Str) :
    regexReplaceFrom head tail new 0 s =
      run (Phrase.rule ⟨head, tail.accepts, tail = .digit, new⟩) s := by
  refine eq_run (Phrase.proper hne) rfl ?_ ?_ s
  · intro c s new' rest h
    obtain ⟨t, hs, hsome, rfl, rfl⟩ := Phrase.rule_eq_some_iff.mp h
    have hstart : head.isPrefixOf (c :: s) = true := by
      rw [hs]
      exact List.isPrefixOf_iff_prefix.mpr (List.prefix_append _ _)
    have ht : (c :: s).drop head.length = t := by rw [hs, List.drop_left]
    have hrun : ¬ (tail = .digit ∧ runLength tail.accepts ((c :: s).drop head.length) = 0) := by
      rintro ⟨hd, hz⟩
      rw [ht] at hz
      exact hsome (by simp [hd]) (List.length_eq_zero_iff.mp hz)
    rw [regexReplaceFrom]
    simp only [hstart, if_true, if_neg hrun]
    rw [regexReplaceFrom_drop, drop_head_run hne hs]
  · intro c s h
    rw [regexReplaceFrom]
    by_cases hstart : head.isPrefixOf (c :: s) = true
    · have hnone : tail = .digit ∧ runLength tail.accepts ((c :: s).drop head.length) = 0 := by
        simp only [Phrase.rule, hstart, if_true] at h
        split at h
        · rename_i hcond
          simpa [runLength] using hcond
        · cases h
      simp only [hstart, if_true, if_pos hnone]
    · simp only [hstart, if_false, Bool.false_eq_true]

/-- A pattern of a text and the digits behind it is the pass of that phrase. -/
theorem regexReplace_digits (pattern head : Str)
    (hsplit : (splitPattern pattern).map (fun r => (unescapeRegexLiteral r.1, r.2)) = some (head, .digit))
    (hne : head ≠ []) (s : Str) :
    regexReplace s pattern (head ++ "PORT".toList) = run (portWord head).rule s := by
  obtain ⟨⟨escaped, tail⟩, hpattern, hhead⟩ := Option.map_eq_some_iff.mp hsplit
  obtain ⟨rfl, rfl⟩ : unescapeRegexLiteral escaped = head ∧ tail = .digit := by simpa using hhead
  unfold regexReplace
  rw [hpattern]
  exact regexReplaceFrom_eq hne .digit _ s

/-- The proxy's passes over port numbers. -/
theorem normalizeCgiOutput_eq (s : Str) : normalizeCgiOutput s = portPasses s := by
  have h₁ : ∀ s, regexReplace s "SERVER_PORT=\\d+".toList "SERVER_PORT=PORT".toList =
      run (portWord "SERVER_PORT=".toList).rule s :=
    regexReplace_digits "SERVER_PORT=\\d+".toList "SERVER_PORT=".toList
      (by decide) (by decide)
  have h₂ : ∀ s, regexReplace s "HTTP_HOST=127\\.0\\.0\\.1:\\d+".toList
      "HTTP_HOST=127.0.0.1:PORT".toList = run (portWord "HTTP_HOST=127.0.0.1:".toList).rule s :=
    regexReplace_digits "HTTP_HOST=127\\.0\\.0\\.1:\\d+".toList "HTTP_HOST=127.0.0.1:".toList
      (by decide) (by decide)
  have h₃ : ∀ s, regexReplace s "Host: 127\\.0\\.0\\.1:\\d+".toList "Host: 127.0.0.1:PORT".toList =
      run (portWord "Host: 127.0.0.1:".toList).rule s :=
    regexReplace_digits "Host: 127\\.0\\.0\\.1:\\d+".toList "Host: 127.0.0.1:".toList
      (by decide) (by decide)
  have h₄ : ∀ s, regexReplace s "Host=127\\.0\\.0\\.1:\\d+".toList "Host=127.0.0.1:PORT".toList =
      run (portWord "Host=127.0.0.1:".toList).rule s :=
    regexReplace_digits "Host=127\\.0\\.0\\.1:\\d+".toList "Host=127.0.0.1:".toList
      (by decide) (by decide)
  simp only [normalizeCgiOutput, h₁, h₂, h₃, h₄]
  rfl

theorem dropWhile_false (t : Str) : t.dropWhile (fun _ => false) = t := by
  cases t with
  | nil => rfl
  | cons d t => rfl

/-- Replacing a literal text is the pass of a phrase that goes no further. -/
theorem replace_eq {needle : Str} (hne : needle ≠ []) (new s : Str) :
    replace needle new s = run (Phrase.rule ⟨needle, fun _ => false, false, new⟩) s := by
  refine eq_run (f := replace needle new) (Phrase.proper hne) rfl ?_ ?_ s
  · intro c s new' rest h
    obtain ⟨t, hs, -, rfl, rfl⟩ := Phrase.rule_eq_some_iff.mp h
    obtain ⟨a, needle', hneedle⟩ := List.exists_cons_of_ne_nil hne
    have hstart : needle.isPrefixOf (c :: s) = true := by
      rw [hs]
      exact List.isPrefixOf_iff_prefix.mpr (List.prefix_append _ _)
    have hrest : s.drop (needle.length - 1) = t := by
      have htail : s = needle' ++ t := by
        rw [hneedle] at hs
        exact (List.cons.inj hs).2
      rw [hneedle, htail, List.length_cons, Nat.add_sub_cancel, List.drop_left]
    rw [replace_cons, if_pos hstart, hrest, dropWhile_false]
  · intro c s h
    have hstart : ¬ needle.isPrefixOf (c :: s) = true := by
      intro hc
      simp [Phrase.rule, hc] at h
    rw [replace_cons, if_neg hstart]

/-- The proxy's pass over `PWD=`, which is for a literal text. -/
theorem normalizePwd_eq (s : Str) : normalizePwd s = run pwdLiteral.rule s := by
  have hsplit : splitPattern "PWD=/[^\n]*".toList = none := by decide
  unfold normalizePwd regexReplace
  rw [hsplit]
  exact replace_eq (by decide) _ s

theorem normalizePathsFrom_drop (k : Nat) (s : Str) :
    normalizePathsFrom k s = normalizePathsFrom 0 (s.drop k) := by
  induction s generalizing k with
  | nil => simp [normalizePathsFrom]
  | cons c s ih =>
      cases k with
      | zero => rfl
      | succ k => rw [normalizePathsFrom, ih, List.drop_succ_cons]

/-- Where a rule finds nothing its text does not begin. -/
theorem not_prefix_of_rule_none {w : Phrase Char} (hsome : w.some = false) {s : Str} (h : w.rule s = none) :
    w.head.isPrefixOf s = false := by
  by_contra hc
  have hstart : w.head.isPrefixOf s = true := by simpa using hc
  simp [Phrase.rule, hstart, hsome] at h

/-- The proxy's pass over paths. -/
theorem normalizePaths_eq (s : Str) : normalizePaths s = run proxyPaths s := by
  refine eq_run (f := normalizePaths) proper_proxyPaths rfl ?_ ?_ s
  · intro c s new rest h
    show normalizePathsFrom 0 (c :: s) = new ++ normalizePathsFrom 0 rest
    have hstart : ∀ {head t : Str}, c :: s = head ++ t → head.isPrefixOf (c :: s) = true := by
      intro head t ht
      rw [ht]
      exact List.isPrefixOf_iff_prefix.mpr (List.prefix_append _ _)
    rw [normalizePathsFrom]
    rcases Option.or_eq_some_iff.mp h with h | ⟨h₁, h⟩
    · obtain ⟨t, ht, -, rfl, rfl⟩ := Phrase.rule_eq_some_iff.mp h
      replace ht : c :: s = golden ++ t := ht
      have hgolden : golden.isPrefixOf (c :: s) = true := hstart ht
      simp only [hgolden, if_true]
      rw [normalizePathsFrom_drop, drop_head_run (by decide) ht]
      rfl
    · have hgolden : golden.isPrefixOf (c :: s) = false := not_prefix_of_rule_none rfl h₁
      rcases Option.or_eq_some_iff.mp h with h | ⟨h₂, h⟩
      · obtain ⟨t, ht, -, rfl, rfl⟩ := Phrase.rule_eq_some_iff.mp h
        replace ht : c :: s = diff ++ t := ht
        have hdiff : diff.isPrefixOf (c :: s) = true := hstart ht
        simp only [hgolden, hdiff, if_true, Bool.false_eq_true, if_false]
        rw [normalizePathsFrom_drop, drop_head_run (by decide) ht]
        rfl
      · have hdiff : diff.isPrefixOf (c :: s) = false := not_prefix_of_rule_none rfl h₂
        obtain ⟨t, ht, -, rfl, rfl⟩ := Phrase.rule_eq_some_iff.mp h
        replace ht : c :: s = pytest ++ t := ht
        have hpytest : pytest.isPrefixOf (c :: s) = true := hstart ht
        simp only [hgolden, hdiff, hpytest, if_true, Bool.false_eq_true, if_false]
        rw [normalizePathsFrom_drop, drop_head_run (by decide) ht]
        rfl
  · intro c s h
    obtain ⟨h₁, h⟩ := Option.or_eq_none_iff.mp h
    obtain ⟨h₂, h₃⟩ := Option.or_eq_none_iff.mp h
    have hgolden : golden.isPrefixOf (c :: s) = false := not_prefix_of_rule_none rfl h₁
    have hdiff : diff.isPrefixOf (c :: s) = false := not_prefix_of_rule_none rfl h₂
    have hpytest : pytest.isPrefixOf (c :: s) = false := not_prefix_of_rule_none rfl h₃
    show normalizePathsFrom 0 (c :: s) = c :: normalizePathsFrom 0 s
    rw [normalizePathsFrom]
    simp only [hgolden, hdiff, hpytest, Bool.false_eq_true, if_false]

/-! ### The harness's passes

A pattern is matched by trying the ways in which its repetitions can end, the
longest first or the shortest first (`Regex`).  For the patterns used here only one
way is ever taken, as what follows the repetition cannot be inside it.
-/

/-- The two programs mean the same by a digit. -/
theorem isDigit_eq : Harness.isDigit = Char.isDigit := by
  funext c
  rfl

/-- And by a letter of a name. -/
theorem isWord_eq : Harness.isWord = isIdentifier := by
  funext c
  have hlower : ('a' ≤ c && c ≤ 'z') = c.isLower := rfl
  have hupper : ('A' ≤ c && c ≤ 'Z') = c.isUpper := (Bool.decide_and _ _).symm
  have hdigit : ('0' ≤ c && c ≤ '9') = c.isDigit := rfl
  show _ = (c.isUpper || c.isLower || c.isDigit || c == '_')
  rw [Harness.isWord, hlower, hupper, hdigit, Bool.or_comm c.isLower]

/-- A literal text and a run of at least one character. -/
theorem rule_plus (head : Str) (p : Char → Bool) (hne : head ≠ []) (new : Str) :
    Regex.Pattern.rule ⟨head, .plus p, hne⟩ new = Phrase.rule ⟨head, p, true, new⟩ := by
  funext s
  unfold Regex.Pattern.rule Regex.Pattern.match? Phrase.rule
  by_cases hstart : head.isPrefixOf s = true
  · simp only [hstart, if_true, Regex.head?_rests_plus, Bool.true_and]
    split
    · rfl
    · rfl
  · simp only [hstart, Bool.false_eq_true, if_false]
    rfl

/-- The harness's passes over port numbers are the proxy's. -/
theorem harness_normalizeCgiOutput_eq (s : Str) : Harness.normalizeCgiOutput s = portPasses s := by
  unfold Harness.normalizeCgiOutput Harness.portRe Regex.Pattern.sub
  simp only [rule_plus, isDigit_eq]
  rfl

theorem harness_normalizePwd_eq (s : Str) : Harness.normalizePwd s = run pwdWord.rule s := by
  unfold Harness.normalizePwd Harness.pwdRe Regex.Pattern.sub
  rw [rule_plus]
  rfl

/-- The lazy run ends at the first slash or white space, or at the end. -/
theorem rule_pytestTempDirRe :
    Harness.pytestTempDirRe.rule "/tmp/pytest_NORMALIZED".toList = (pytestWord harnessStops).rule := by
  have hpass : ∀ c, harnessStops c = false → Harness.isDot c = true := by
    intro c hc
    unfold Harness.isDot
    by_contra hdot
    have hnl : c = '\n' := by simpa using hdot
    rw [hnl] at hc
    revert hc
    decide
  have hstop : ∀ c s, (((Regex.Re.cls fun c => c == '/' || Harness.isSpace c).alt .eol).rests
      (c :: s)).isEmpty = !harnessStops c := by
    intro c s
    show (((if harnessStops c then [s] else []) ++
      if c :: s = [] ∨ c :: s = ['\n'] then [c :: s] else []) : List Str).isEmpty = !harnessStops c
    by_cases hc : harnessStops c = true
    · simp [hc]
    · have hne : ¬ (c :: s = [] ∨ c :: s = ['\n']) := by
        rintro (h | h)
        · cases h
        · have hnl : c = '\n' := (List.cons.inj h).1
          rw [hnl] at hc
          exact hc (by decide)
      rw [if_neg hne]
      simp [hc]
  funext s
  unfold Regex.Pattern.rule Regex.Pattern.match? Phrase.rule
  by_cases hstart : pytest.isPrefixOf s = true
  · have hhead : Harness.pytestTempDirRe.head.isPrefixOf s = true := hstart
    have hword : (pytestWord harnessStops).head.isPrefixOf s = true := hstart
    simp only [hhead, hword, if_true]
    show (((Regex.Re.few Harness.isDot).seq (.ahead _)).rests _).head?.map _ = _
    rw [Regex.head?_rests_few hstop rfl hpass]
    rfl
  · have hhead : ¬ Harness.pytestTempDirRe.head.isPrefixOf s = true := hstart
    have hword : ¬ (pytestWord harnessStops).head.isPrefixOf s = true := hstart
    rw [if_neg hhead, if_neg hword]
    rfl

/-- One of two words, an underscore and a run. -/
theorem mem_rests_tempDir {t rest : Str} (h : rest ∈ Harness.tempDirRe.tail.rests t) :
    (∃ v, t = "golden_".toList ++ v) ∨ ∃ v, t = "diff_".toList ++ v := by
  obtain ⟨t₁, ht₁, hrest⟩ := List.mem_flatMap.mp h
  obtain ⟨t₂, ht₂, -⟩ := List.mem_flatMap.mp hrest
  have hlit : ∀ {w t' t : Str}, t' ∈ (Regex.Re.lit w).rests t → t = w ++ t' := by
    intro w t' t hmem
    unfold Regex.Re.rests at hmem
    split at hmem
    · rename_i hstart
      obtain ⟨v, rfl⟩ := List.isPrefixOf_iff_prefix.mp hstart
      rw [List.mem_singleton, List.drop_left] at hmem
      rw [hmem]
    · cases hmem
  have hunder := hlit ht₂
  rcases List.mem_append.mp ht₁ with hword | hword
  · left
    exact ⟨t₂, by rw [hlit hword, hunder]; rfl⟩
  · right
    exact ⟨t₂, by rw [hlit hword, hunder]; rfl⟩

theorem rule_tempDirRe :
    Harness.tempDirRe.rule "/tmp/thttpd_NORMALIZED".toList =
      either (tempWord golden true).rule (tempWord diff true).rule := by
  have hplus : ∀ v : Str, ((Regex.Re.plus Harness.isWord).rests v).head?.map
      (fun rest => ("/tmp/thttpd_NORMALIZED".toList, rest)) =
      if true && (v.takeWhile isIdentifier).isEmpty then none
      else some ("/tmp/thttpd_NORMALIZED".toList, v.dropWhile isIdentifier) := by
    intro v
    rw [Regex.head?_rests_plus, isWord_eq, Bool.true_and]
    split
    · rfl
    · rfl
  have hunder : ∀ v : Str, ((Regex.Re.lit "_".toList).seq (.plus Harness.isWord)).rests ('_' :: v) =
      (Regex.Re.plus Harness.isWord).rests v := by
    intro v
    show List.flatMap _ [v] = _
    rw [List.flatMap_singleton]
  have hgoldenRests : ∀ v : Str, Harness.tempDirRe.tail.rests ("golden_".toList ++ v) =
      (Regex.Re.plus Harness.isWord).rests v := by
    intro v
    show List.flatMap _ ['_' :: v] = _
    rw [List.flatMap_singleton]
    exact hunder v
  have hdiffRests : ∀ v : Str, Harness.tempDirRe.tail.rests ("diff_".toList ++ v) =
      (Regex.Re.plus Harness.isWord).rests v := by
    intro v
    show List.flatMap _ ['_' :: v] = _
    rw [List.flatMap_singleton]
    exact hunder v
  funext s
  by_cases hgolden : golden <+: s
  · obtain ⟨v, rfl⟩ := hgolden
    have hother : ¬ (tempWord diff true).head <+: golden ++ v := by
      rintro ⟨u, hu⟩
      have hchar := congrArg (fun l => l[12]?) hu
      have hfalse : some 'd' = some 'g' := hchar
      cases hfalse
    show _ = ((tempWord golden true).rule ((tempWord golden true).head ++ v)).or _
    rw [Phrase.rule_none_of_not_head hother, Option.or_none, Phrase.rule_head_append]
    refine Eq.trans ?_ (hplus v)
    show (Harness.tempDirRe.tail.rests ("golden_".toList ++ v)).head?.map _ = _
    rw [hgoldenRests]
  · by_cases hdiff : diff <+: s
    · obtain ⟨v, rfl⟩ := hdiff
      show _ = ((tempWord golden true).rule (diff ++ v)).or
        ((tempWord diff true).rule ((tempWord diff true).head ++ v))
      rw [Phrase.rule_none_of_not_head hgolden, Option.none_or, Phrase.rule_head_append]
      refine Eq.trans ?_ (hplus v)
      show (Harness.tempDirRe.tail.rests ("diff_".toList ++ v)).head?.map _ = _
      rw [hdiffRests]
    · show _ = ((tempWord golden true).rule s).or ((tempWord diff true).rule s)
      rw [Phrase.rule_none_of_not_head hgolden, Phrase.rule_none_of_not_head hdiff]
      show (Harness.tempDirRe.match? s).map _ = none
      rw [Option.map_eq_none_iff]
      unfold Regex.Pattern.match?
      by_cases hstart : Harness.tempDirRe.head.isPrefixOf s = true
      · obtain ⟨t, rfl⟩ := List.isPrefixOf_iff_prefix.mp hstart
        rw [if_pos hstart, List.drop_left, List.head?_eq_none_iff, List.eq_nil_iff_forall_not_mem]
        intro rest hrest
        rcases mem_rests_tempDir hrest with ⟨v, rfl⟩ | ⟨v, rfl⟩
        · exact hgolden ⟨v, rfl⟩
        · exact hdiff ⟨v, rfl⟩
      · rw [if_neg hstart]

/-- The rule of the harness's first pass over paths. -/
def tempPaths : Rule Char := either (tempWord golden true).rule (tempWord diff true).rule

theorem proper_tempPaths : Proper tempPaths :=
  (Phrase.proper (by decide)).either (Phrase.proper (by decide))

theorem keepsHead_tempPaths : KeepsHead tempPaths :=
  (Phrase.keepsHead (by decide) (by decide)).either (Phrase.keepsHead (by decide) (by decide))

/-- It finds nothing in front of what is no slash. -/
theorem tempPaths_of_ne {c : Char} (hc : c ≠ '/') (s : Str) : tempPaths (c :: s) = none := by
  have hhead : ∀ head : Str, head.head? = some '/' → head ≠ [] →
      (tempWord head true).rule (c :: s) = none := by
    intro head hslash hne
    refine Phrase.rule_of_head_ne hne ?_ s
    show head.head? ≠ some c
    rw [hslash]
    simpa using hc.symm
  show Option.or _ _ = none
  rw [hhead golden rfl (by decide), hhead diff rfl (by decide)]
  rfl

theorem tempPaths_of_avoids {u v : Str} (hg : Phrase.Avoids golden u = true)
    (hd : Phrase.Avoids diff u = true) (hv : v <:+ u) (hne : v ≠ []) (t : Str) :
    tempPaths (v ++ t) = none := by
  show Option.or _ _ = none
  rw [Phrase.rule_of_avoids hg hv hne t, Phrase.rule_of_avoids hd hv hne t]
  rfl

/-- What it finds is one of two heads with a name. -/
theorem tempPaths_eq_some {s new rest : Str} (h : tempPaths s = some (new, rest)) :
    new = "/tmp/thttpd_NORMALIZED".toList := by
  rcases Option.or_eq_some_iff.mp h with h | ⟨-, h⟩
  · obtain ⟨t, -, -, rfl, -⟩ := Phrase.rule_eq_some_iff.mp h
    rfl
  · obtain ⟨t, -, -, rfl, -⟩ := Phrase.rule_eq_some_iff.mp h
    rfl

/-- The first pass brings about no pytest directory. -/
theorem pytest_prefix_of_run {c : Char} {s : Str} (hnone : tempPaths (c :: s) = none)
    (h : pytest <+: c :: run tempPaths s) : pytest <+: c :: s := by
  have hplain : ∀ {u : Str}, '/' ∉ u → ∀ d ∈ u, ∀ s, tempPaths (d :: s) = none := by
    intro u hu d hd
    exact tempPaths_of_ne fun hc => hu (hc ▸ hd)
  obtain ⟨z, hz⟩ := h
  obtain ⟨rfl, hrun⟩ : '/' = c ∧ "tmp".toList ++ ("/pytest-".toList ++ z) = run tempPaths s :=
    List.cons.inj hz
  obtain ⟨x, rfl, hx⟩ := (run_eq_append_iff proper_tempPaths keepsHead_tempPaths
    (hplain (by decide))).mp hrun.symm
  -- Behind `/tmp` there is a slash, and it stays where it is.
  have hslash := head?_run proper_tempPaths keepsHead_tempPaths x
  rw [hx] at hslash
  cases x with
  | nil => cases hslash
  | cons d x =>
      obtain rfl : '/' = d := by simpa using hslash
      rcases hm : tempPaths ('/' :: x) with _ | ⟨new, rest⟩
      · rw [run_of_none hm] at hx
        obtain ⟨y, rfl, -⟩ := (run_eq_append_iff proper_tempPaths keepsHead_tempPaths
          (hplain (u := "pytest-".toList) (by decide))).mp (List.cons.inj hx).2
        exact ⟨y, rfl⟩
      · rw [run_of_some proper_tempPaths hm, tempPaths_eq_some hm] at hx
        have hchar := congrArg (fun l => l[1]?) hx
        have hfalse : some 't' = some 'p' := hchar
        cases hfalse

/-- What the first of the two passes leaves after a run the second goes over. -/
theorem dropWhile_append_run {p : Char → Bool} {t : Str} :
    (t.takeWhile p ++ run tempPaths (t.dropWhile p)).dropWhile p = run tempPaths (t.dropWhile p) := by
  have hhead := head?_run proper_tempPaths keepsHead_tempPaths (t.dropWhile p)
  have htake : ∀ c ∈ t.takeWhile p, p c = true := fun c hc => List.mem_takeWhile_imp hc
  rw [List.dropWhile_append_of_pos htake]
  rcases hrest : run tempPaths (t.dropWhile p) with _ | ⟨c, y⟩
  · rfl
  · rw [hrest, List.head?_cons] at hhead
    have hc : p c = false := by
      have hnot := List.head?_dropWhile_not p t
      rw [← hhead] at hnot
      simpa using hnot
    rw [List.dropWhile_cons_of_neg (by simp [hc])]

/-- What the rule for both passes finds, either of the two finds. -/
theorem harnessPaths_eq (s : Str) :
    harnessPaths s = (tempPaths s).or ((pytestWord harnessStops).rule s) := by
  show Option.or _ (Option.or _ _) = Option.or (Option.or _ _) _
  rw [Option.or_assoc]

/-- The harness's two passes over paths do what one would. -/
theorem harness_normalizePaths_eq (s : Str) : Harness.normalizePaths s = run harnessPaths s := by
  show (Harness.pytestTempDirRe.sub _ (Harness.tempDirRe.sub _ s)) = _
  unfold Regex.Pattern.sub
  rw [rule_pytestTempDirRe, rule_tempDirRe]
  have hpytest : Proper (pytestWord harnessStops).rule := Phrase.proper (by decide)
  refine eq_run (f := fun s => run (pytestWord harnessStops).rule (run tempPaths s))
    proper_harnessPaths rfl ?_ ?_ s
  · intro c s new rest h
    rw [harnessPaths_eq] at h
    rcases Option.or_eq_some_iff.mp h with h | ⟨hnone, h⟩
    · have hcopy := Phrase.run_avoids (w := pytestWord harnessStops) (u := "/tmp/thttpd_NORMALIZED".toList)
        (by decide) (run tempPaths rest)
      show run _ (run tempPaths (c :: s)) = _
      rw [run_of_some proper_tempPaths h, tempPaths_eq_some h, hcopy]
    · obtain ⟨t, hs, -, rfl, rfl⟩ := Phrase.rule_eq_some_iff.mp h
      -- The first pass copies the head and the run, which holds no slash.
      have hrun : run tempPaths (c :: s) = pytest ++
          (t.takeWhile (pytestWord harnessStops).tail ++
            run tempPaths (t.dropWhile (pytestWord harnessStops).tail)) := by
        rw [hs]
        show run tempPaths (pytest ++ t) = _
        rw [run_copy (fun v hv hne => tempPaths_of_avoids (by decide) (by decide) hv hne t)]
        congr 1
        have hsplit : t.takeWhile (pytestWord harnessStops).tail ++
            t.dropWhile (pytestWord harnessStops).tail = t := List.takeWhile_append_dropWhile
        conv_lhs => rw [← hsplit]
        refine run_copy ?_
        intro v hv hne
        obtain ⟨d, v, rfl⟩ := List.exists_cons_of_ne_nil hne
        refine tempPaths_of_ne ?_ _
        rintro rfl
        have hslash := List.mem_takeWhile_imp (hv.subset List.mem_cons_self)
        revert hslash
        decide
      show run _ (run tempPaths (c :: s)) = _ ++ run _ (run tempPaths _)
      rw [hrun]
      have hfound := Phrase.rule_head_append (w := pytestWord harnessStops)
        (t.takeWhile (pytestWord harnessStops).tail ++
          run tempPaths (t.dropWhile (pytestWord harnessStops).tail))
      rw [dropWhile_append_run] at hfound
      exact run_of_some hpytest hfound
  · intro c s h
    rw [harnessPaths_eq] at h
    obtain ⟨htemp, hnone⟩ := Option.or_eq_none_iff.mp h
    show run _ (run tempPaths (c :: s)) = c :: run _ (run tempPaths s)
    rw [run_of_none htemp]
    refine run_of_none (Phrase.rule_none_of_not_head ?_)
    intro hstart
    have hc := pytest_prefix_of_run htemp hstart
    have hfalse := not_prefix_of_rule_none (w := pytestWord harnessStops) rfl hnone
    rw [show (pytestWord harnessStops).head = pytest from rfl,
      List.isPrefixOf_iff_prefix.mpr hc] at hfalse
    cases hfalse

end Thttpd.Migrate
