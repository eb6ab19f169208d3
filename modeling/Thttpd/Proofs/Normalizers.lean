/-
The normalizers on any text.

Their loops slice at a byte index that each turn moves, by a matched length, by the bytes of a
run or by one character.  Where the turn begins at the end of a part of the text it ends at the
end of a longer one, so that no slice is within a character and the loops come to an end with
what the passes over characters give.  What a pass writes takes no part in a match of any
phrase, so that the second time there is nothing left to replace.

The loops are written with indices in the source and the passes are defined on
characters, so each turn is looked at as a step along the text: from the end of one
part to the end of a longer one (`Walk`).  A turn that would stop within a character
or stay where it is cannot be such a step, and this is why the loops end and none of
their slices panics.
-/
import Thttpd.Lib.Settle
import Thttpd.Migrate.DiffLoops
import Thttpd.Proofs.Normalize

namespace Thttpd.Migrate

open Text Rewrite

/-! ### One turn

A turn of either loop copies a character, or writes a placeholder and passes what
was found.  What was found is made of ASCII or ends at a class that ASCII decides, so
the place behind it is a boundary.
-/

theorem tail_sameClass (tail : TailClass) :
    SameClass (fun b => tail.accepts (byteChar b)) tail.accepts := by
  cases tail with
  | digit =>
      refine SameClass.ofByteChar (v := false) fun c hc => ?_
      rw [Bool.eq_false_iff]
      intro hd
      have hle : c.toNat ≤ 0x39 := (Char.isDigit_iff_toNat.mp hd).2
      omega
  | any => exact SameClass.ofByteChar (v := true) fun _ _ => rfl
  | nonl =>
      refine SameClass.ofByteChar (v := true) fun c hc => ?_
      refine bne_iff_ne.mpr ?_
      rintro rfl
      revert hc
      decide

theorem isIdentifier_sameClass : SameClass (fun b => isIdentifier (byteChar b)) isIdentifier := by
  refine SameClass.ofByteChar (v := false) fun c hc => ?_
  have hrange : ∀ lo hi : Char, hi.toNat < 0x80 → (lo ≤ c && c ≤ hi) = false := by
    intro lo hi hlt
    rw [Bool.eq_false_iff]
    intro hin
    have hle : c.toNat ≤ hi.toNat := of_decide_eq_true (Bool.and_eq_true_iff.mp hin).2
    omega
  have hunder : (c == '_') = false := by
    rw [beq_eq_false_iff_ne]
    rintro rfl
    revert hc
    decide
  rw [← isWord_eq, Harness.isWord, hrange 'a' 'z' (by decide), hrange 'A' 'Z' (by decide),
    hrange '0' '9' (by decide), hunder]
  rfl

theorem stops_sameClass :
    SameClass (fun b => !(byteChar b == '/' || isAsciiWhitespace (byteChar b)))
      (fun c => !(c == '/' || isAsciiWhitespace c)) := by
  refine SameClass.ofByteChar (Q := fun c => !(c == '/' || isAsciiWhitespace c)) (v := true)
    fun c hc => ?_
  have hne : ∀ d : Char, d.toNat < 0x80 → (c == d) = false := by
    intro d hd
    rw [beq_eq_false_iff_ne]
    rintro rfl
    omega
  rw [isAsciiWhitespace, hne '/' (by decide), hne ' ' (by decide), hne '\t' (by decide),
    hne '\n' (by decide), hne '\x0C' (by decide), hne '\r' (by decide)]
  rfl

namespace Bytewise

section

variable {value a s : Str} {c : Char} {fuel : Nat}

/-- From a place in the text the rest of it is read. -/
theorem strFrom_place (hvalue : value = a ++ s) : strFrom value (asBytes a).length = some s := by
  rw [hvalue, strFrom_append]

/-- The turn that copies. -/
theorem copy_turn (hvalue : value = a ++ c :: s) :
    value = (a ++ [c]) ++ s ∧ ∀ out, copyChar (c :: s) (asBytes a).length out =
      some ((asBytes (a ++ [c])).length, out ++ [c]) :=
  ⟨by rw [hvalue, List.append_assoc]; rfl, copyChar_cons a c s⟩

/-- The turn that passes a head and a run. -/
theorem passRun_turn {P : UInt8 → Bool} {Q : Char → Bool} (h : SameClass P Q) {head t : Str}
    (hvalue : value = a ++ (head ++ t)) (hfuel : byteLen value < fuel) (new : Str) :
    value = (a ++ head ++ t.takeWhile Q) ++ t.dropWhile Q ∧
      ∀ out, passRun P fuel value ((asBytes a).length + byteLen head) out new =
        some ((asBytes (a ++ head ++ t.takeWhile Q)).length, out ++ new) := by
  rw [byteLen_eq] at hfuel
  subst hvalue
  constructor
  · rw [List.append_assoc, List.takeWhile_append_dropWhile, List.append_assoc]
  · intro out
    rw [passRun, skipWhile_run h a head t hfuel]
    rfl

theorem isPrefixOf_append (head t : Str) : head.isPrefixOf (head ++ t) = true :=
  List.isPrefixOf_iff_prefix.mpr (List.prefix_append head t)

theorem not_isPrefixOf {head s : Str} (h : ¬ head <+: s) : head.isPrefixOf s = false := by
  rw [Bool.eq_false_iff]
  exact mt List.isPrefixOf_iff_prefix.mp h

theorem pathsTurn_temp (hvalue : value = a ++ s) {head t : Str} (hhead : head ∈ [golden, diff])
    (hs : s = head ++ t) (out : Str) :
    pathsTurn fuel value (asBytes a).length out =
      passRun (fun b => isIdentifier (byteChar b)) fuel value ((asBytes a).length + byteLen head) out
        "/tmp/thttpd_NORMALIZED".toList := by
  rw [pathsTurn, strFrom_place hvalue, Option.bind_some, hs]
  simp only [List.mem_cons, List.not_mem_nil, or_false] at hhead
  rcases hhead with rfl | rfl
  · simp only [isPrefixOf_append, if_true]
  · have hother : golden.isPrefixOf (diff ++ t) = false :=
      not_isPrefixOf (Phrase.not_prefix_append (by decide) (by decide) t)
    simp only [hother, isPrefixOf_append, if_true, Bool.false_eq_true, if_false]

theorem pathsTurn_pytest (hvalue : value = a ++ s) {t : Str} (hs : s = pytest ++ t) (out : Str) :
    pathsTurn fuel value (asBytes a).length out =
      passRun (fun b => !(byteChar b == '/' || isAsciiWhitespace (byteChar b))) fuel value
        ((asBytes a).length + byteLen pytest) out "/tmp/pytest_NORMALIZED".toList := by
  have hgolden : golden.isPrefixOf (pytest ++ t) = false :=
    not_isPrefixOf (Phrase.not_prefix_append (by decide) (by decide) t)
  have hdiff : diff.isPrefixOf (pytest ++ t) = false :=
    not_isPrefixOf (Phrase.not_prefix_append (by decide) (by decide) t)
  rw [pathsTurn, strFrom_place hvalue, Option.bind_some, hs]
  simp only [hgolden, hdiff, isPrefixOf_append, if_true, Bool.false_eq_true, if_false]

theorem pathsTurn_copy (hvalue : value = a ++ s) (hno : NoName s) (out : Str) :
    pathsTurn fuel value (asBytes a).length out = copyChar s (asBytes a).length out := by
  obtain ⟨hgolden, hdiff, hpytest⟩ := noName_iff.mp hno
  rw [pathsTurn, strFrom_place hvalue, Option.bind_some]
  simp only [not_isPrefixOf hgolden, not_isPrefixOf hdiff, not_isPrefixOf hpytest, Bool.false_eq_true,
    if_false]

/--
**Each turn over paths is a step of the pass.**

The source cuts the text by byte offsets, and each turn is shown to cut it at an
edge and to do what the pass does with the characters there.
-/
theorem follows_pathsTurn (hfuel : byteLen value < fuel) :
    Follows proxyPaths value (pathsTurn fuel value) := by
  intro a c s hvalue
  rcases name_cases (c :: s) with hno | ⟨head, hhead, t, ht⟩ | ⟨t, ht⟩
  · obtain ⟨hsplit, hcopy⟩ := copy_turn hvalue
    exact ⟨_, _, _, hsplit, fun out => (pathsTurn_copy hvalue hno out).trans (hcopy out),
      .inr ⟨proxyPaths_of_noName hno, rfl, rfl⟩⟩
  · obtain ⟨hsplit, hpass⟩ := passRun_turn isIdentifier_sameClass (ht ▸ hvalue) hfuel
      "/tmp/thttpd_NORMALIZED".toList
    refine ⟨_, _, _, hsplit, fun out => (pathsTurn_temp hvalue hhead ht out).trans (hpass out), .inl ?_⟩
    rw [ht]
    exact proxyPaths_temp hhead t
  · obtain ⟨hsplit, hpass⟩ := passRun_turn stops_sameClass (ht ▸ hvalue) hfuel
      "/tmp/pytest_NORMALIZED".toList
    refine ⟨_, _, _, hsplit, fun out => (pathsTurn_pytest hvalue ht out).trans (hpass out), .inl ?_⟩
    rw [ht]
    exact proxyPaths_pytest t

/-- **So is each turn over a pattern.** -/
theorem follows_regexTurn {head : Str} (tail : TailClass) (new : Str) (hfuel : byteLen value < fuel) :
    Follows (Phrase.rule ⟨head, tail.accepts, tail = .digit, new⟩) value
      (regexTurn fuel value head tail new) := by
  intro a c s hvalue
  obtain ⟨hcopied, hcopy⟩ := copy_turn hvalue
  by_cases hhead : head <+: c :: s
  · obtain ⟨t, ht⟩ := hhead
    rw [byteLen_eq] at hfuel
    have hlong : (asBytes (a ++ (head ++ t))).length < fuel := by rwa [ht, ← hvalue]
    have hskip := skipWhile_run (tail_sameClass tail) a head t hlong
    rw [ht, ← hvalue] at hskip
    have hturn : ∀ out, regexTurn fuel value head tail new (asBytes a).length out =
        if tail = .digit ∧ t.takeWhile tail.accepts = [] then copyChar (c :: s) (asBytes a).length out
        else some ((asBytes (a ++ head ++ t.takeWhile tail.accepts)).length, out ++ new) := by
      intro out
      have hstart : head.isPrefixOf (c :: s) = true := ht ▸ isPrefixOf_append head t
      rw [regexTurn, strFrom_place hvalue, Option.bind_some, if_pos hstart, hskip, Option.bind_some]
      have hnone : (asBytes (a ++ head ++ t.takeWhile tail.accepts)).length =
          (asBytes a).length + byteLen head ↔ t.takeWhile tail.accepts = [] := by
        rw [asBytes_append, asBytes_append, List.length_append, List.length_append, byteLen_eq,
          Nat.add_eq_left, List.length_eq_zero_iff]
        exact asBytes_inj (t := [])
      simp only [hnone]
    by_cases hrun : tail = .digit ∧ t.takeWhile tail.accepts = []
    · refine ⟨_, _, _, hcopied, fun out => ?_, .inr ⟨?_, rfl, rfl⟩⟩
      · rw [hturn, if_pos hrun, hcopy]
      · rw [← ht]
        have hrule := Phrase.rule_head_append (w := ⟨head, tail.accepts, tail = .digit, new⟩) t
        rw [hrun.2, if_pos (by simp [hrun.1])] at hrule
        exact hrule
    · refine ⟨a ++ head ++ t.takeWhile tail.accepts, new, t.dropWhile tail.accepts, ?_, fun out => ?_,
        .inl ?_⟩
      · rw [List.append_assoc, List.takeWhile_append_dropWhile, List.append_assoc, ht, hvalue]
      · rw [hturn, if_neg hrun]
      · rw [← ht]
        refine Phrase.rule_eq_some_iff.mpr ⟨t, rfl, fun hdigit hempty => ?_, rfl, rfl⟩
        exact hrun ⟨of_decide_eq_true hdigit, hempty⟩
  · have hstart := not_isPrefixOf hhead
    refine ⟨_, _, _, hcopied, fun out => ?_, .inr ⟨Phrase.rule_none_of_not_head hhead, rfl, rfl⟩⟩
    rw [regexTurn, strFrom_place hvalue, Option.bind_some, if_neg (by rw [hstart]; exact Bool.false_ne_true)]
    exact hcopy out

/-! ### The loops

Each loop is its turns, one after the other, so it ends where the pass does.
-/

/-- The loop over paths is the pass over paths. -/
theorem normalizePaths_eq (hfuel : byteLen value < fuel) :
    normalizePaths fuel value = some (Migrate.normalizePaths value) := by
  rw [Migrate.normalizePaths_eq]
  refine walk_eq proper_proxyPaths (follows_pathsTurn hfuel) (a := []) rfl ?_ []
  exact (length_le_byteLen value).trans_lt hfuel

/-- The text before a needle is a part of the text. -/
theorem prefix_of_before {needle s head : Str} (h : before needle s = some head) : head <+: s := by
  induction s generalizing head with
  | nil =>
      unfold before at h
      split at h
      · cases h
        exact List.prefix_rfl
      · cases h
  | cons c s ih =>
      unfold before at h
      split at h
      · cases h
        exact List.nil_prefix
      · obtain ⟨head', hhead, rfl⟩ := Option.map_eq_some_iff.mp h
        exact List.cons_prefix_cons.mpr ⟨rfl, ih hhead⟩

theorem strTo_before {needle pattern head : Str} (h : before needle pattern = some head) :
    strTo pattern (byteLen head) = some head := by
  obtain ⟨t, rfl⟩ := prefix_of_before h
  rw [byteLen_eq, strTo_append]

/-- A pattern is never cut within a character. -/
theorem splitPattern_eq (pattern : Str) : splitPattern pattern = some (Migrate.splitPattern pattern) := by
  unfold splitPattern Migrate.splitPattern find
  cases hdigit : before "\\d+".toList pattern with
  | some head => simp only [Option.map_some, strTo_before hdigit]
  | none =>
      simp only [Option.map_none]
      cases hany : before ".*".toList pattern with
      | some head => simp only [Option.map_some, strTo_before hany]
      | none =>
          simp only [Option.map_none]
          cases hnonl : before "[^\\n]*".toList pattern with
          | some head => simp only [Option.map_some, strTo_before hnonl]
          | none => rfl

/-- Behind an empty head the loop could stay where it is. -/
def HasHead (pattern : Str) : Prop :=
  ∀ r, Migrate.splitPattern pattern = some r → unescapeRegexLiteral r.1 ≠ []

theorem regexReplace_eq {pattern : Str} (hhead : HasHead pattern) (new : Str)
    (hfuel : byteLen value < fuel) :
    regexReplace fuel value pattern new = some (Migrate.regexReplace value pattern new) := by
  unfold regexReplace Migrate.regexReplace
  rw [splitPattern_eq, Option.bind_some]
  cases hsplit : Migrate.splitPattern pattern with
  | none => rfl
  | some r =>
      have hne := hhead r hsplit
      simp only
      rw [regexReplaceFrom_eq hne]
      refine walk_eq (Phrase.proper hne) (follows_regexTurn r.2 new hfuel) (a := []) rfl ?_ []
      exact (length_le_byteLen value).trans_lt hfuel

end

end Bytewise

/-! ### Nothing is left to replace

Idempotence is not a matter of one pass.  A later pass may write what an earlier one
looks for, so what has to be seen is that no placeholder shares a part with any
phrase of any pass, at its front or at its end.
-/

/-- The passes of `normalize_value`. -/
def passes : List (List (Phrase Char)) :=
  [tempWord golden false, tempWord diff false, pytestWord proxyStops] ::
    (portWords.map fun w => [w]) ++ [[pwdLiteral]]

/-- The phrases over paths, tried one after the other, are one rule. -/
theorem anyOf_paths :
    anyOf [tempWord golden false, tempWord diff false, pytestWord proxyStops] = proxyPaths := by
  funext s
  show List.findSome? _ _ = Option.or _ (Option.or _ _)
  simp only [List.findSome?_cons, List.findSome?_nil]
  cases (tempWord golden false).rule s with
  | some r => rfl
  | none =>
      cases (tempWord diff false).rule s with
      | some r => rfl
      | none => cases (pytestWord proxyStops).rule s <;> rfl

/-- All passes, one after the other. -/
theorem normalizeValue_eq (value : Str) : normalizeValue value = runAll passes value := by
  unfold normalizeValue
  rw [normalizePaths_eq, normalizeCgiOutput_eq, normalizePwd_eq]
  simp only [runAll, passes, portPasses, portWords, List.map_cons, List.map_nil, List.cons_append,
    List.nil_append, List.foldl_cons, List.foldl_nil, anyOf_singleton, anyOf_paths]

/-- No placeholder takes part in a match. -/
theorem apart_passes : Phrase.Apart passes.flatten = true := by decide +kernel

/-! ### Main result

Fuel is in the model only.  With as many turns as the text has bytes, and one more,
every loop comes to its end.
-/

/-- The patterns `regex_replace` is called with. -/
def fixedPatterns : List Str :=
  ["SERVER_PORT=\\d+".toList, "HTTP_HOST=127\\.0\\.0\\.1:\\d+".toList,
    "Host: 127\\.0\\.0\\.1:\\d+".toList, "Host=127\\.0\\.0\\.1:\\d+".toList,
    "PWD=/[^\n]*".toList]

theorem hasHead_of_mem {pattern : Str} (h : pattern ∈ fixedPatterns) : Bytewise.HasHead pattern := by
  have hall : ∀ p ∈ fixedPatterns,
      (splitPattern p).all (fun r => !(unescapeRegexLiteral r.1).isEmpty) = true := by decide
  intro r hr hempty
  have hhead := hall pattern h
  rw [hr, Option.all_some, hempty] at hhead
  cases hhead

/-- With turns enough, the code comes to its end with a result. -/
def Answers (code : Nat → Option Str) (result : Str) : Prop :=
  ∃ n, ∀ fuel, n ≤ fuel → code fuel = some result

theorem Answers.bind {code : Nat → Option Str} {next : Nat → Str → Option Str} {value result : Str}
    (h : Answers code value) (hnext : Answers (fun fuel => next fuel value) result) :
    Answers (fun fuel => (code fuel).bind (next fuel)) result := by
  obtain ⟨n, hn⟩ := h
  obtain ⟨n', hn'⟩ := hnext
  refine ⟨max n n', fun fuel hfuel => ?_⟩
  show (code fuel).bind (next fuel) = some result
  rw [hn fuel (by omega), Option.bind_some]
  exact hn' fuel (by omega)

theorem answers_normalizePaths (value : Str) :
    Answers (fun fuel => Bytewise.normalizePaths fuel value) (normalizePaths value) :=
  ⟨byteLen value + 1, fun _ hfuel => Bytewise.normalizePaths_eq hfuel⟩

theorem answers_regexReplace {pattern : Str} (h : pattern ∈ fixedPatterns) (value new : Str) :
    Answers (fun fuel => Bytewise.regexReplace fuel value pattern new) (regexReplace value pattern new) :=
  ⟨byteLen value + 1, fun _ hfuel => Bytewise.regexReplace_eq (hasHead_of_mem h) new hfuel⟩

theorem answers_normalizeCgiOutput (value : Str) :
    Answers (fun fuel => Bytewise.normalizeCgiOutput fuel value) (normalizeCgiOutput value) := by
  refine (answers_regexReplace (by simp [fixedPatterns]) value _).bind ?_
  refine (answers_regexReplace (by simp [fixedPatterns]) _ _).bind ?_
  refine (answers_regexReplace (by simp [fixedPatterns]) _ _).bind ?_
  exact answers_regexReplace (by simp [fixedPatterns]) _ _

/-- All of `normalize_value` does. -/
theorem answers_normalizeValue (value : Str) :
    Answers (fun fuel => Bytewise.normalizeValue fuel value) (normalizeValue value) :=
  ((answers_normalizePaths value).bind (answers_normalizeCgiOutput _)).bind
    (answers_regexReplace (by simp [fixedPatterns]) _ _)

/--
**The normalizers are safe on any text, and idempotent.**  Their loops end, with no
slice within a character; on the text of any bytes all they give is Latin-1, which
its bytes give back; and the second time they change nothing.

The loops are modelled twice: by bytes with their offsets, as the source has them,
and by characters, where the passes can be reasoned about.
-/
theorem normalizers_safe_idempotent :
    (∀ value, Answers (fun fuel => Bytewise.normalizePaths fuel value) (normalizePaths value) ∧
      (∀ pattern ∈ fixedPatterns, ∀ new, Answers (fun fuel => Bytewise.regexReplace fuel value pattern new)
        (regexReplace value pattern new)) ∧
      Answers (fun fuel => Bytewise.normalizeValue fuel value) (normalizeValue value)) ∧
    (∀ body : Bytes, (∀ c ∈ normalizeValue (bytesToLatin1 body), c.toNat ≤ 0xFF) ∧
      bytesToLatin1 (normalizeBodyBytes body) = normalizeValue (bytesToLatin1 body)) ∧
    ∀ value, normalizeValue (normalizeValue value) = normalizeValue value := by
  refine ⟨fun value => ?_, fun body => ?_, fun value => ?_⟩
  · exact ⟨answers_normalizePaths value, fun pattern h new => answers_regexReplace h value new,
      answers_normalizeValue value⟩
  · have hlatin := latin1_proxy (latin1_bytesToLatin1 body)
    exact ⟨fun c hc => Nat.le_of_lt_succ (hlatin c hc), bytesToLatin1_latin1ToBytes hlatin⟩
  · rw [normalizeValue_eq, normalizeValue_eq, runAll_runAll apart_passes]

/-- A directory beside characters of several bytes. -/
example : Bytewise.normalizePaths 40 "é /tmp/thttpd_diff_9/日".toList =
    some "é /tmp/thttpd_NORMALIZED/日".toList := by decide +kernel

end Thttpd.Migrate
