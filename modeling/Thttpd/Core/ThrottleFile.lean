/-
The throttle file: `ThrottleTable::load` and `parse_line` in
`rust/crates/thttpd-core/src/throttle.rs`.

A rule is a pattern and a rate, `pattern max` or `pattern min-max`.  A line that is no
rule is reported and left out.
-/
import Thttpd.Core.Throttle

namespace Thttpd

open Text

/-- The pattern of a rule, quoted or up to the first white space, and what follows it. -/
def splitPattern : Str → Option (Str × Str)
  | '"' :: stripped =>
      match splitOnce '"' stripped with
      | some (pattern, rest) => some (pattern, trimStart rest)
      | none => none
  | line =>
      match line.dropWhile fun c => !isWhitespace c with
      | [] => none
      | _ :: rest => some (trim (line.takeWhile fun c => !isWhitespace c), trimStart rest)

/-- The limits of a rule, the smaller one first. -/
def parseRates (rates : Str) : Option (Int × Int) :=
  match splitOnce '-' rates with
  | some (minStr, maxStr) => do
      let minLimit ← parseI64 (trim minStr)
      let maxLimit ← parseI64 (trim maxStr)
      pure (minLimit, maxLimit)
  | none => do
      let maxLimit ← parseI64 rates
      pure (0, maxLimit)

/-- A pattern as it is kept: without slashes in front, of the whole or of an alternative. -/
def keptPattern (pattern : Str) : Str :=
  replace "|/".toList "|".toList (pattern.dropWhile (· == '/'))

def parseLine (line : Str) : Option ThrottleEntry := do
  let (pattern, rest) ← splitPattern line
  let (minLimit, maxLimit) ← parseRates (trim (rest.takeWhile fun c => !isWhitespace c))
  if keptPattern pattern = [] then none
  else pure (ThrottleEntry.new (keptPattern pattern) maxLimit minLimit)

/-- The rule in one line of the file, the comment cut off. -/
def lineRule (rawLine : Str) : Option ThrottleEntry :=
  let line := rawLine.rdropWhile fun c => c == ' ' || c == '\t' || c == '\n' || c == '\r'
  match splitOnce '#' line with
  | some (before, _) => if trim before = [] then none else parseLine (trimEnd before)
  | none => if line = [] then none else parseLine line

/-- The rules of a file with these bytes; `none` when they are no text. -/
def ThrottleTable.load (content : Bytes) : Option ThrottleTable :=
  (fromUtf8 content).map fun text => (lines text).filterMap lineRule

/-- The smaller limit stands before the dash, so it has no sign. -/
theorem parseRates_min {rates : Str} {minLimit maxLimit : Int}
    (h : parseRates rates = some (minLimit, maxLimit)) : 0 ≤ minLimit := by
  unfold parseRates at h
  split at h
  · rename_i minStr maxStr hsplit
    obtain ⟨n, hn, h⟩ := Option.bind_eq_some_iff.mp h
    obtain ⟨m, -, h⟩ := Option.bind_eq_some_iff.mp h
    cases h
    exact parseI64_nonneg (fun hc => notMem_of_splitOnce hsplit (mem_of_mem_trim hc)) hn
  · obtain ⟨m, -, h⟩ := Option.bind_eq_some_iff.mp h
    cases h
    exact Int.le_refl 0

/-- A rule that has just been read counts nobody. -/
theorem parseLine_new {line : Str} {e : ThrottleEntry} (h : parseLine line = some e) :
    ∃ pattern maxLimit minLimit, 0 ≤ minLimit ∧ e = ThrottleEntry.new pattern maxLimit minLimit := by
  unfold parseLine at h
  obtain ⟨⟨pattern, rest⟩, -, h⟩ := Option.bind_eq_some_iff.mp h
  obtain ⟨⟨minLimit, maxLimit⟩, hrates, h⟩ := Option.bind_eq_some_iff.mp h
  by_cases hempty : keptPattern pattern = []
  · simp only [if_pos hempty] at h
    cases h
  · simp only [if_neg hempty] at h
    cases h
    exact ⟨_, _, _, parseRates_min hrates, rfl⟩

theorem lineRule_new {line : Str} {e : ThrottleEntry} (h : lineRule line = some e) :
    ∃ pattern maxLimit minLimit, 0 ≤ minLimit ∧ e = ThrottleEntry.new pattern maxLimit minLimit := by
  unfold lineRule at h
  simp only at h
  split at h <;> split at h
  · cases h
  · exact parseLine_new h
  · cases h
  · exact parseLine_new h

/-- Every rule of a file is new, and asks for no less than nothing. -/
theorem ThrottleTable.load_rules {content : Bytes} {table : ThrottleTable}
    (h : ThrottleTable.load content = some table) : ∀ e ∈ table, ∃ pattern maxLimit minLimit,
      0 ≤ minLimit ∧ e = ThrottleEntry.new pattern maxLimit minLimit := by
  intro e he
  obtain ⟨text, -, rfl⟩ := Option.map_eq_some_iff.mp h
  obtain ⟨line, -, hline⟩ := List.mem_filterMap.mp he
  exact lineRule_new hline

theorem ThrottleTable.load_new {content : Bytes} {table : ThrottleTable}
    (h : ThrottleTable.load content = some table) :
    ∀ e ∈ table, ∃ pattern maxLimit minLimit, e = ThrottleEntry.new pattern maxLimit minLimit := by
  intro e he
  obtain ⟨pattern, maxLimit, minLimit, -, rfl⟩ := ThrottleTable.load_rules h e he
  exact ⟨_, _, _, rfl⟩

example : ThrottleTable.load (asBytes "# all\n/a.txt|/b 5-10 # both\n*.png\n\"c d\" 7\n".toList)
    = some [.new "a.txt|b".toList 10 5, .new "c d".toList 7 0] := by decide

end Thttpd
