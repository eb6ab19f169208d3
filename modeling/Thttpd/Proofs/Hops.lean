/-
The headers of one hop.

A hop keeps its own headers: those of a fixed set, and those the `Connection` fields name.
What a field names is read off its bytes here.  The proxy reads it off text, and a value
that is no text is to it an empty one, so it forwards what such a field names and empties
such a value.

The argument goes name by name.  A backend is sent a list of headers, so what it gets
is told by the values under each name, in their order (`sentValues`), and this is
what the hash map of the proxy keeps of the order of a request.  For the response the
comparison is of the lists themselves.
-/
import Thttpd.Lib.Split
import Thttpd.Proofs.Invisible

namespace Thttpd.Migrate

open Text

/-- The header that names others. -/
def connection : Str := "connection".toList

/-- The header a backend needs. -/
def host : Str := "host".toList

/-! ### What a hop keeps

The specification, on the bytes of the fields: a list of names between commas, white
space around them, and no difference between letter cases.
-/

/-- The white space of header values. -/
def isOws (c : Char) : Bool := c == ' ' || c == '\t'

/-- A value without white space at its ends. -/
def trimOws (s : Str) : Str := (s.dropWhile isOws).rdropWhile isOws

/-- The names in the value of a `Connection` field, in lower case. -/
def listedIn (value : Bytes) : List Str :=
  ((value.map byteChar).splitOn ',').map fun t => asciiLower (trimOws t)

/-- The name is listed in a `Connection` field. -/
def listed (m : HeaderMap) (n : Str) : Bool :=
  (m.getAll connection).any fun v => (listedIn v).contains (asciiLower n)

/-- The header is of this hop only. -/
def perHop (m : HeaderMap) (n : Str) : Bool := isHopByHop n || listed m n

/-- A value that is text to the proxy. -/
def isAsciiValue (v : Bytes) : Bool := v.all fun b => b < 0x80

/-- The same as far as the fields are ASCII. -/
def listedInAscii (m : HeaderMap) (n : Str) : Bool :=
  (m.getAll connection).any fun v => isAsciiValue v && (listedIn v).contains (asciiLower n)

/-- The values of a name in what is sent. -/
def sentValues (headers : List (Str × Str)) (n : Str) : List Bytes :=
  (headers.filter fun h => h.1 = n).map fun h => asBytes h.2

/-- What a backend should get under a name. -/
def expectedValues (m : HeaderMap) (id addr n : Str) : List Bytes :=
  if n = xRequestId then [asBytes id]
  else if n = host ∧ (perHop m host = true ∨ m.getAll host = []) then [asBytes addr]
  else if perHop m n then [] else m.getAll n

/--
**The backend gets the headers of the client but those of the hop**, whatever its
address.

What the backend gets is asked about name by name, as the list of its values, so a
header that is there twice must be sent twice.
-/
def ForwardsExactly (k : Crates) (job : Job) : Prop :=
  ∀ addr n, sentValues (rebuiltHeaders (job.headers k) addr) n =
    expectedValues job.req.headers job.requestId addr n

/--
**The client gets the headers of the backend but those of the hop.**

Order and number of the other headers stay.
-/
def StripsExactly (m : HeaderMap) : Prop := stripHopByHop m = m.filter fun h => !perHop m h.1

/-- The iterator yields the values of one name in their order. -/
def Crates.Ordered (k : Crates) : Prop :=
  ∀ (m : HeaderMap) (n : Str), (k.iter m).filter (fun h => h.1 = n) = m.filter fun h => h.1 = n

/-! ### The names a field lists

The proxy trims what it splits with a function for all of Unicode.  On a value that
is text, that is spaces and tabs.
-/

theorem dropWhile_congr {α : Type} {p q : α → Bool} {s : List α} (h : ∀ c ∈ s, p c = q c) :
    s.dropWhile p = s.dropWhile q := by
  induction s with
  | nil => rfl
  | cons c s ih =>
      rw [List.dropWhile_cons, List.dropWhile_cons, h c List.mem_cons_self,
        ih fun d hd => h d (List.mem_cons_of_mem c hd)]

/-- So both trim the same. -/
theorem trim_eq_trimOws {s : Str} (h : ∀ c ∈ s, isWhitespace c = isOws c) : trim s = trimOws s := by
  unfold trim trimStart trimEnd trimOws
  rw [dropWhile_congr h, List.rdropWhile, List.rdropWhile]
  refine congrArg List.reverse (dropWhile_congr fun c hc => h c ?_)
  exact (List.dropWhile_suffix _).subset (List.mem_reverse.mp hc)

/-- Between visible characters, white space is spaces and tabs. -/
theorem isWhitespace_visible {b : UInt8} (h : ((0x20 ≤ b && b < 0x7F) || b == 0x09) = true) :
    isWhitespace (byteChar b) = isOws (byteChar b) := by
  have hall : ∀ n < 0x80, (0x20 ≤ n ∧ n < 0x7F) ∨ n = 0x09 →
      isWhitespace (Char.ofNat n) = isOws (Char.ofNat n) := by decide
  have hb : (0x20 ≤ b.toNat ∧ b.toNat < 0x7F) ∨ b.toNat = 0x09 := by
    simpa only [Bool.or_eq_true, Bool.and_eq_true, decide_eq_true_eq, beq_iff_eq, UInt8.le_iff_toNat_le,
      UInt8.lt_iff_toNat_lt, ← UInt8.toNat_inj, UInt8.reduceToNat] using h
  exact hall b.toNat (by omega) hb

theorem listedIn_of_toStr {v : Bytes} {s : Str} (h : toStr v = some s) :
    ((s.splitOn ',').map fun t => asciiLower (trim t)) = listedIn v := by
  unfold toStr at h
  split at h
  · rename_i hall
    obtain rfl := Option.some.inj h
    refine List.map_congr_left fun t ht => ?_
    refine congrArg asciiLower (trim_eq_trimOws fun c hc => ?_)
    obtain ⟨b, hb, rfl⟩ := List.mem_map.mp (subset_of_mem_splitOn ht hc)
    exact isWhitespace_visible (List.all_eq_true.mp hall b hb)
  · cases h

/-- A name the proxy reads in a field is listed there. -/
theorem mem_connectionTokens {m : HeaderMap} {n : Str} (hne : n ≠ []) :
    n ∈ connectionTokens m ↔ ∃ v ∈ m.getAll connection, (toStr v).isSome = true ∧ n ∈ listedIn v := by
  unfold connectionTokens
  rw [List.mem_filter, and_iff_left (by simpa using hne), List.mem_flatMap]
  constructor
  · rintro ⟨s, hs, hn⟩
    obtain ⟨v, hv, htext⟩ := List.mem_filterMap.mp hs
    rw [listedIn_of_toStr htext] at hn
    exact ⟨v, hv, by rw [htext]; rfl, hn⟩
  · rintro ⟨v, hv, htext, hn⟩
    obtain ⟨s, hs⟩ := Option.isSome_iff_exists.mp htext
    refine ⟨s, List.mem_filterMap.mpr ⟨v, hv, hs⟩, ?_⟩
    rwa [listedIn_of_toStr hs]

/-! ### Legal headers

What hyper lets through: names of token characters, in lower case, and values that
are visible characters, spaces, tabs and bytes above ASCII.
-/

section

variable {m : HeaderMap}

theorem getAll_eq_nil {n : Str} : m.getAll n = [] ↔ ∀ h ∈ m, h.1 ≠ n := by
  unfold HeaderMap.getAll
  rw [List.map_eq_nil_iff, List.filter_eq_nil_iff]
  simp

/-- A value is text exactly when it is ASCII. -/
theorem HeaderMap.Valid.isSome_iff (hv : m.Valid) {h : Str × Bytes} (hmem : h ∈ m) :
    (toStr h.2).isSome = true ↔ isAsciiValue h.2 = true := by
  rw [toStr_isSome_iff (hv.value h hmem), isAsciiValue, List.all_eq_true]
  simp only [decide_eq_true_eq]

theorem HeaderMap.Valid.lower (hv : m.Valid) {h : Str × Bytes} (hmem : h ∈ m) : asciiLower h.1 = h.1 :=
  asciiLower_of_headerName (hv.name h hmem)

theorem HeaderMap.Valid.ne_nil (hv : m.Valid) {h : Str × Bytes} (hmem : h ∈ m) : h.1 ≠ [] := by
  have hname := hv.name h hmem
  unfold headerName at hname
  split at hname
  · rename_i hok
    exact hok.1
  · cases hname

theorem HeaderMap.Valid.isName_iff (hv : m.Valid) {h : Str × Bytes} (hmem : h ∈ m) {n : Str}
    (hn : asciiLower n = n) : eqIgnoreAsciiCase h.1 n = true ↔ h.1 = n := by
  rw [eqIgnoreAsciiCase, decide_eq_true_eq, hv.lower hmem, hn]

/-- The proxy reads the fields that are ASCII. -/
theorem mem_connectionTokens_iff (hv : m.Valid) {h : Str × Bytes} (hmem : h ∈ m) :
    h.1 ∈ connectionTokens m ↔ listedInAscii m h.1 = true := by
  rw [mem_connectionTokens (hv.ne_nil hmem), listedInAscii, List.any_eq_true, hv.lower hmem]
  refine exists_congr fun v => and_congr_right fun hget => ?_
  obtain ⟨h', hfield, rfl⟩ := List.mem_map.mp hget
  rw [Bool.and_eq_true, List.contains_iff_mem, hv.isSome_iff (List.mem_filter.mp hfield).1]

theorem listed_of_listedInAscii {n : Str} (h : listedInAscii m n = true) : listed m n = true := by
  obtain ⟨v, hv, hn⟩ := List.any_eq_true.mp h
  exact List.any_eq_true.mpr ⟨v, hv, (Bool.and_eq_true_iff.mp hn).2⟩

/-! ### Responses

Stripping removes the names of the fixed set and those the readable fields list, so
it leaves too much exactly when an unreadable field is the only one to list a name.
-/

/-- Every header of the hop that a field lists is listed in one that is ASCII. -/
def ListedReadably (m : HeaderMap) (skipped : Str → Prop) : Prop :=
  ∀ h ∈ m, isHopByHop h.1 = false → ¬ skipped h.1 → listed m h.1 = true → listedInAscii m h.1 = true

/-- A header that is stripped is of the hop as the proxy reads the fields. -/
theorem stripHopByHop_eq (hv : m.Valid) :
    stripHopByHop m = m.filter fun h => !isHopByHop h.1 && !listedInAscii m h.1 := by
  have hmem : ∀ h ∈ m, h ∈ stripHopByHop m ↔ isHopByHop h.1 = false ∧ listedInAscii m h.1 = false := by
    intro h hm
    rw [mem_strip_iff hv, mem_connectionTokens_iff hv hm, Bool.not_eq_true]
    exact ⟨fun hall => ⟨hall.2.2, hall.2.1⟩, fun hall => ⟨hm, hall.2, hall.1⟩⟩
  simp only [stripHopByHop, foldl_remove, List.filter_filter] at hmem ⊢
  refine List.filter_congr fun h hm => ?_
  have hiff := hmem h hm
  rw [List.mem_filter, and_iff_right hm] at hiff
  rw [Bool.eq_iff_iff, hiff]
  simp

theorem stripsExactly_iff (hv : m.Valid) : StripsExactly m ↔ ListedReadably m fun _ => False := by
  unfold StripsExactly
  rw [stripHopByHop_eq hv]
  constructor
  · intro heq h hm hhop _ hlisted
    by_contra hnot
    have hkept : h ∈ m.filter fun h => !isHopByHop h.1 && !listedInAscii m h.1 :=
      List.mem_filter.mpr ⟨hm, by simp [hhop, hnot]⟩
    rw [heq] at hkept
    have hgone := (List.mem_filter.mp hkept).2
    rw [perHop, hlisted, Bool.or_true] at hgone
    cases hgone
  · intro hread
    refine List.filter_congr fun h hm => ?_
    rw [perHop, Bool.not_or]
    cases hhop : isHopByHop h.1 with
    | true => rfl
    | false =>
        have hsame : listedInAscii m h.1 = listed m h.1 := by
          rw [Bool.eq_iff_iff]
          exact ⟨listed_of_listedInAscii, hread h hm hhop id⟩
        rw [hsame]

/-! ### Requests

A request's headers go through text on their way, a value that is none as an empty
one.
-/

/-- The proxy forwards the name. -/
def forwardsName (m : HeaderMap) (n : Str) : Bool :=
  !isHopByHop n && !(connectionTokens m).contains (asciiLower n)

theorem forwardsName_iff (hv : m.Valid) {h : Str × Bytes} (hm : h ∈ m) :
    forwardsName m h.1 = true ↔ isHopByHop h.1 = false ∧ listedInAscii m h.1 = false := by
  rw [forwardsName, hv.lower hm, Bool.and_eq_true, Bool.not_eq_true', Bool.not_eq_true',
    Bool.eq_false_iff (b := List.contains _ _), Ne, List.contains_iff_mem, mem_connectionTokens_iff hv hm,
    Bool.not_eq_true]

/-- The values a backend gets for a name the proxy forwards. -/
def returnedValues (m : HeaderMap) (n : Str) : List Bytes := (m.getAll n).map returnedValue

variable {k : Crates}

theorem asBytes_toPair (h : Str × Bytes) : asBytes (toPair h).2 = returnedValue h.2 := by
  unfold toPair returnedValue
  cases hs : toStr h.2 with
  | none => rfl
  | some s => exact asBytes_of_toStr hs

theorem sentValues_append (l l' : List (Str × Str)) (n : Str) :
    sentValues (l ++ l') n = sentValues l n ++ sentValues l' n := by
  rw [sentValues, List.filter_append, List.map_append]
  rfl

theorem sentValues_forwarded (hk : k.Ordered) (m : HeaderMap) (n : Str) :
    sentValues (forwardedHeaders k m) n = if forwardsName m n then returnedValues m n else [] := by
  have hname : ((k.iter m).filter fun h =>
      !isHopByHop h.1 && !(connectionTokens m).contains (asciiLower h.1)).filter (fun h => h.1 = n) =
      if forwardsName m n then m.filter (fun h => h.1 = n) else [] := by
    rw [List.filter_filter]
    split
    · rename_i hn
      rw [← hk m n]
      refine List.filter_congr fun h _ => ?_
      by_cases hh : h.1 = n
      · rw [← forwardsName.eq_def, hh, hn]
        simp
      · simp [hh]
    · rename_i hn
      refine List.filter_eq_nil_iff.mpr fun h _ => ?_
      rintro hboth
      obtain ⟨hh, hkept⟩ := Bool.and_eq_true_iff.mp hboth
      rw [← forwardsName.eq_def, of_decide_eq_true hh] at hkept
      exact hn hkept
  have hpairs : sentValues (forwardedHeaders k m) n =
      (((k.iter m).filter fun h =>
        !isHopByHop h.1 && !(connectionTokens m).contains (asciiLower h.1)).filter
          (fun h => h.1 = n)).map fun h => returnedValue h.2 := by
    unfold sentValues forwardedHeaders
    rw [List.filter_map, List.map_map]
    exact List.map_congr_left fun h _ => asBytes_toPair h
  rw [hpairs, hname]
  split
  · rw [returnedValues, HeaderMap.getAll, List.map_map]
    rfl
  · rfl

theorem mem_forwarded {h : Str × Str} (hm : h ∈ forwardedHeaders k m) :
    ∃ h' ∈ m, h'.1 = h.1 ∧ forwardsName m h.1 = true := by
  obtain ⟨h', hin, rfl⟩ := List.mem_map.mp hm
  obtain ⟨hiter, hkept⟩ := List.mem_filter.mp hin
  exact ⟨h', (k.iter_perm m).mem_iff.mp hiter, rfl, hkept⟩

/-! ### What is sent

Three things are decided about each name: whether it is forwarded, which values it
then has, and whether the proxy adds one of its own, as it does for the host and for
the id of the request.
-/

variable {job : Job}

theorem sentValues_headers (hk : k.Ordered) (hv : job.req.headers.Valid) (n : Str) :
    sentValues (job.headers k) n =
      if n = xRequestId then [asBytes job.requestId]
      else if forwardsName job.req.headers n then returnedValues job.req.headers n else [] := by
  have hname : ∀ h ∈ forwardedHeaders k job.req.headers,
      eqIgnoreAsciiCase h.1 xRequestId = true ↔ h.1 = xRequestId := by
    intro h hm
    obtain ⟨h', hin, hsame, -⟩ := mem_forwarded hm
    rw [← hsame]
    exact hv.isName_iff hin (by decide)
  unfold Job.headers
  rw [sentValues_append]
  split
  · rename_i hn
    subst hn
    have hnone : sentValues ((forwardedHeaders k job.req.headers).filter
        fun h => !eqIgnoreAsciiCase h.1 xRequestId) xRequestId = [] := by
      unfold sentValues
      rw [List.map_eq_nil_iff, List.filter_eq_nil_iff]
      intro h hm hid
      obtain ⟨hin, hnot⟩ := List.mem_filter.mp hm
      rw [(hname h hin).mpr (of_decide_eq_true hid)] at hnot
      cases hnot
    have hown : sentValues [(xRequestId, job.requestId)] xRequestId = [asBytes job.requestId] := by
      simp [sentValues]
    rw [hnone, hown, List.nil_append]
  · rename_i hn
    have hown : sentValues [(xRequestId, job.requestId)] n = [] := by
      simp [sentValues, Ne.symm hn]
    rw [hown, List.append_nil, ← sentValues_forwarded hk]
    unfold sentValues
    rw [List.filter_filter]
    refine congrArg _ (List.filter_congr fun h hm => ?_)
    by_cases hh : h.1 = n
    · have hnot : eqIgnoreAsciiCase h.1 xRequestId = false := by
        rw [Bool.eq_false_iff, Ne, hname h hm, hh]
        exact hn
      rw [hnot]
      simp
    · simp [hh]

/-- Nothing of the hop is left among them. -/
theorem headers_not_hopByHop {h : Str × Str} (hm : h ∈ job.headers k) : isHopByHop h.1 = false := by
  rcases List.mem_append.mp hm with hm | hm
  · obtain ⟨-, -, -, hkept⟩ := mem_forwarded (List.mem_filter.mp hm).1
    simpa using (Bool.and_eq_true_iff.mp hkept).1
  · obtain rfl := List.mem_singleton.mp hm
    show isHopByHop xRequestId = false
    decide

theorem host_ne_requestId : host ≠ xRequestId := by decide

/-- A `Host` is added unless one is forwarded. -/
theorem rebuiltHeaders_eq (hv : job.req.headers.Valid) (addr : Str) :
    rebuiltHeaders (job.headers k) addr =
      job.headers k ++ if sentValues (job.headers k) host = [] then [(host, addr)] else [] := by
  have hkept : (job.headers k).filter (fun h => !isHopByHop h.1) = job.headers k :=
    List.filter_eq_self.mpr fun h hm => by rw [headers_not_hopByHop hm]; rfl
  have hhost : ((job.headers k).any fun h => eqIgnoreAsciiCase h.1 "host".toList) = true ↔
      ¬ sentValues (job.headers k) host = [] := by
    unfold sentValues
    rw [List.map_eq_nil_iff, List.filter_eq_nil_iff, List.any_eq_true]
    push Not
    refine exists_congr fun h => and_congr_right fun hm => ?_
    rw [decide_eq_true_eq]
    rcases List.mem_append.mp hm with hm | hm
    · obtain ⟨h', hin, hsame, -⟩ := mem_forwarded (List.mem_filter.mp hm).1
      rw [← hsame]
      exact hv.isName_iff hin (by decide)
    · obtain rfl := List.mem_singleton.mp hm
      have hname : ¬ eqIgnoreAsciiCase xRequestId "host".toList = true := by decide
      exact iff_of_false hname host_ne_requestId.symm
  simp only [rebuiltHeaders, hkept]
  by_cases hgone : sentValues (job.headers k) host = []
  · rw [if_pos hgone, if_neg (not_not.mpr hgone ∘ hhost.mp)]
    rfl
  · rw [if_neg hgone, if_pos (hhost.mpr hgone), List.append_nil]

/-- The headers of the request a backend is sent, when one can be built. -/
theorem rebuild_headers {headers : List (Str × Str)} {body : Body} {addr : Str} {sent : ProxyRequest}
    (h : job.rebuild k headers body addr = some sent) : sent.headers = rebuiltHeaders headers addr := by
  simp only [Job.rebuild, rebuildForBackendStreaming] at h
  split at h
  · obtain rfl := Option.some.inj h
    rfl
  · cases h

/-- The values under a name as the proxy sends them. -/
theorem sentValues_rebuilt (hk : k.Ordered) (hv : job.req.headers.Valid) (addr n : Str) :
    sentValues (rebuiltHeaders (job.headers k) addr) n =
      if n = xRequestId then [asBytes job.requestId]
      else if n = host ∧ (forwardsName job.req.headers host = false ∨ job.req.headers.getAll host = [])
        then [asBytes addr]
      else if forwardsName job.req.headers n then returnedValues job.req.headers n else [] := by
  have hhost : sentValues (job.headers k) host = [] ↔
      forwardsName job.req.headers host = false ∨ job.req.headers.getAll host = [] := by
    rw [sentValues_headers hk hv, if_neg host_ne_requestId]
    cases forwardsName job.req.headers host with
    | true => simp [returnedValues]
    | false => simp
  rw [rebuiltHeaders_eq hv, sentValues_append, sentValues_headers hk hv]
  by_cases hid : n = xRequestId
  · rw [if_pos hid, if_pos hid, hid]
    split
    · simp [sentValues, host_ne_requestId]
    · rfl
  rw [if_neg hid, if_neg hid]
  by_cases hn : n = host
  · subst hn
    by_cases hgone : sentValues (job.headers k) host = []
    · have hsame := sentValues_headers hk hv host
      rw [hgone, if_neg hid] at hsame
      rw [if_pos hgone, ← hsame, if_pos ⟨rfl, hhost.mp hgone⟩]
      simp [sentValues]
    · rw [if_neg hgone, if_neg fun h : host = host ∧ _ => hgone (hhost.mpr h.2)]
      exact List.append_nil _
  · rw [if_neg fun h : n = host ∧ _ => hn h.1]
    have hother : sentValues (if sentValues (job.headers k) host = [] then [(host, addr)] else []) n = [] := by
      split
      · simp [sentValues, Ne.symm hn]
      · rfl
    rw [hother, List.append_nil]

/-- Every value that is to be forwarded is ASCII. -/
def ForwardedAscii (m : HeaderMap) : Prop :=
  ∀ h ∈ m, perHop m h.1 = false → h.1 ≠ xRequestId → isAsciiValue h.2 = true

theorem returnedValue_eq_self {v : Bytes} (h : (toStr v).isSome = true) : returnedValue v = v := if_pos h

theorem isSome_of_returnedValue {v : Bytes} (h : returnedValue v = v) : (toStr v).isSome = true := by
  rw [← h]
  exact toStr_returnedValue v

theorem perHop_of_not_forwards (hv : m.Valid) {h : Str × Bytes} (hm : h ∈ m)
    (hnot : forwardsName m h.1 = false) : perHop m h.1 = true := by
  by_contra hkept
  rw [perHop, Bool.not_eq_true, Bool.or_eq_false_iff] at hkept
  have hread : listedInAscii m h.1 = false := by
    rw [Bool.eq_false_iff]
    intro hread
    rw [listed_of_listedInAscii hread] at hkept
    cases hkept.2
  rw [(forwardsName_iff hv hm).mpr ⟨hkept.1, hread⟩] at hnot
  cases hnot

/-- ASCII values survive the text they pass through. -/
theorem returnedValues_eq_getAll (hv : m.Valid) (hascii : ForwardedAscii m) {h : Str × Bytes}
    (hkept : perHop m h.1 = false) (hid : h.1 ≠ xRequestId) : returnedValues m h.1 = m.getAll h.1 := by
  unfold returnedValues
  refine (List.map_congr_left fun v hget => ?_).trans (List.map_id _)
  obtain ⟨h', hfield, rfl⟩ := List.mem_map.mp hget
  obtain ⟨hm', hname⟩ := List.mem_filter.mp hfield
  have hname' : h'.1 = h.1 := of_decide_eq_true hname
  refine returnedValue_eq_self ((hv.isSome_iff hm').mpr (hascii h' hm' ?_ ?_))
  · rw [hname', hkept]
  · rwa [hname']

/-- A present name that goes on is sent under its values. -/
theorem sentValues_of_forwards (hk : k.Ordered) (hv : job.req.headers.Valid) {h : Str × Bytes}
    (hm : h ∈ job.req.headers) (hid : h.1 ≠ xRequestId) (hfwd : forwardsName job.req.headers h.1 = true)
    (addr : Str) : sentValues (rebuiltHeaders (job.headers k) addr) h.1 = returnedValues job.req.headers h.1 := by
  rw [sentValues_rebuilt hk hv, if_neg hid, if_neg ?_, if_pos hfwd]
  rintro ⟨hn, hgone | hgone⟩
  · rw [← hn, hfwd] at hgone
    cases hgone
  · exact getAll_eq_nil.mp hgone h hm hn

theorem expectedValues_of_kept {h : Str × Bytes} (hm : h ∈ m) (hid : h.1 ≠ xRequestId)
    (hkept : perHop m h.1 = false) (id addr : Str) : expectedValues m id addr h.1 = m.getAll h.1 := by
  rw [expectedValues, if_neg hid, if_neg ?_, hkept, if_neg (by decide)]
  rintro ⟨hn, hgone | hgone⟩
  · rw [← hn, hkept] at hgone
    cases hgone
  · exact getAll_eq_nil.mp hgone h hm hn

theorem expectedValues_of_perHop {n : Str} (hid : n ≠ xRequestId) (hper : perHop m n = true) (id addr : Str) :
    expectedValues m id addr n = if n = host then [asBytes addr] else [] := by
  rw [expectedValues, if_neg hid, hper, if_pos rfl]
  by_cases hn : n = host
  · rw [if_pos hn, if_pos ⟨hn, .inl (hn ▸ hper)⟩]
  · rw [if_neg hn, if_neg fun h : n = host ∧ _ => hn h.1]

theorem expectedValues_of_absent {n : Str} (hid : n ≠ xRequestId) (hgone : m.getAll n = []) (id addr : Str) :
    expectedValues m id addr n = if n = host then [asBytes addr] else [] := by
  rw [expectedValues, if_neg hid]
  by_cases hn : n = host
  · rw [if_pos hn, if_pos ⟨hn, .inr (hn ▸ hgone)⟩]
  · rw [if_neg hn, if_neg fun h : n = host ∧ _ => hn h.1, hgone]
    exact ite_self _

theorem mem_getAll {h : Str × Bytes} (hm : h ∈ m) : h.2 ∈ m.getAll h.1 :=
  List.mem_map.mpr ⟨h, List.mem_filter.mpr ⟨hm, by simp⟩, rfl⟩

theorem ForwardsExactly.ascii (hk : k.Ordered) (hv : job.req.headers.Valid) (hall : ForwardsExactly k job) :
    ForwardedAscii job.req.headers := by
  intro h hm hkept hid
  have hfwd : forwardsName job.req.headers h.1 = true := by
    by_contra hnot
    rw [perHop_of_not_forwards hv hm (Bool.not_eq_true _ ▸ hnot)] at hkept
    cases hkept
  have heq := hall [] h.1
  rw [sentValues_of_forwards hk hv hm hid hfwd, expectedValues_of_kept hm hid hkept, returnedValues] at heq
  have hsame := List.map_inj_left.mp (heq.trans (List.map_id _).symm) h.2 (mem_getAll hm)
  exact (hv.isSome_iff hm).mp (isSome_of_returnedValue hsame)

theorem ForwardsExactly.readably (hk : k.Ordered) (hv : job.req.headers.Valid) (hall : ForwardsExactly k job) :
    ListedReadably job.req.headers fun n => n = xRequestId := by
  intro h hm hhop hid hlisted
  by_contra hread
  have hfwd := (forwardsName_iff hv hm).mpr ⟨hhop, Bool.not_eq_true _ ▸ hread⟩
  have hper : perHop job.req.headers h.1 = true := by rw [perHop, hlisted, Bool.or_true]
  have heq : ∀ addr, returnedValues job.req.headers h.1 = if h.1 = host then [asBytes addr] else [] := by
    intro addr
    rw [← sentValues_of_forwards hk hv hm hid hfwd addr, hall addr h.1, expectedValues_of_perHop hid hper]
  by_cases hn : h.1 = host
  · -- The address that would be added is not the value for every address.
    have habs := (heq []).symm.trans (heq ['/'])
    rw [if_pos hn, if_pos hn] at habs
    revert habs
    decide
  · have hnone := heq []
    rw [if_neg hn, returnedValues, List.map_eq_nil_iff] at hnone
    exact getAll_eq_nil.mp hnone h hm rfl

/-- Where the fields can be read, what is forwarded is what is not of the hop. -/
theorem forwardsName_eq (hv : m.Valid) (hread : ListedReadably m fun n => n = xRequestId) {h : Str × Bytes}
    (hm : h ∈ m) (hid : h.1 ≠ xRequestId) : forwardsName m h.1 = !perHop m h.1 := by
  rw [Bool.eq_iff_iff, forwardsName_iff hv hm, perHop, Bool.not_eq_true', Bool.or_eq_false_iff]
  refine and_congr_right fun hhop => ?_
  constructor
  · intro hnot
    rw [Bool.eq_false_iff] at hnot ⊢
    exact mt (hread h hm hhop hid) hnot
  · intro hnot
    rw [Bool.eq_false_iff] at hnot ⊢
    exact mt listed_of_listedInAscii hnot

theorem forwardsExactly_of (hk : k.Ordered) (hv : job.req.headers.Valid)
    (hascii : ForwardedAscii job.req.headers)
    (hread : ListedReadably job.req.headers fun n => n = xRequestId) : ForwardsExactly k job := by
  intro addr n
  by_cases hid : n = xRequestId
  · rw [sentValues_rebuilt hk hv, expectedValues, if_pos hid, if_pos hid]
  by_cases hgone : job.req.headers.getAll n = []
  · rw [expectedValues_of_absent hid hgone, sentValues_rebuilt hk hv, if_neg hid]
    by_cases hn : n = host
    · rw [if_pos hn, if_pos ⟨hn, .inr (hn ▸ hgone)⟩]
    · rw [if_neg hn, if_neg fun h : n = host ∧ _ => hn h.1, returnedValues, hgone]
      exact ite_self _
  obtain ⟨h, hm, rfl⟩ : ∃ h ∈ job.req.headers, h.1 = n := by
    by_contra hnone
    push Not at hnone
    exact hgone (getAll_eq_nil.mpr hnone)
  have hsame := forwardsName_eq hv hread hm hid
  cases hper : perHop job.req.headers h.1 with
  | false =>
      rw [hper] at hsame
      rw [sentValues_of_forwards hk hv hm hid hsame, expectedValues_of_kept hm hid hper]
      exact returnedValues_eq_getAll hv hascii hper hid
  | true =>
      rw [hper] at hsame
      rw [sentValues_rebuilt hk hv, if_neg hid, expectedValues_of_perHop hid hper, hsame]
      by_cases hn : h.1 = host
      · rw [if_pos hn, if_pos ⟨hn, .inl (hn ▸ hsame)⟩]
      · rw [if_neg hn, if_neg fun h' : h.1 = host ∧ _ => hn h'.1]
        rfl

theorem forwardsExactly_iff (hk : k.Ordered) (hv : job.req.headers.Valid) :
    ForwardsExactly k job ↔
      ForwardedAscii job.req.headers ∧ ListedReadably job.req.headers fun n => n = xRequestId :=
  ⟨fun h => ⟨h.ascii hk hv, h.readably hk hv⟩, fun h => forwardsExactly_of hk hv h.1 h.2⟩

/--
**What the proxy forwards and strips.**  Both sides keep exactly the headers of the
hop when every value to be forwarded is ASCII, and what is listed in a field that is
not ASCII is listed in one that is.  What is said of the forwarded headers is said of
the request each backend gets.

The fields that name further headers of the hop are read as text, and one that is
not ASCII is passed over.  So a header it names goes through, unless another field
names it as well.
-/
theorem hop_headers_iff (k : Crates) (job : Job) (resp : HeaderMap) (hk : k.Ordered)
    (hreq : job.req.headers.Valid) (hresp : resp.Valid) :
    ((ForwardsExactly k job ∧ StripsExactly resp) ↔
      ForwardedAscii job.req.headers ∧ (ListedReadably job.req.headers fun n => n = xRequestId) ∧
        ListedReadably resp fun _ => False) ∧
    ∀ body addr sent, job.rebuild k (job.headers k) body addr = some sent →
      sent.headers = rebuiltHeaders (job.headers k) addr := by
  refine ⟨?_, fun body addr sent => rebuild_headers⟩
  rw [forwardsExactly_iff hk hreq, stripsExactly_iff hresp, and_assoc]

/-- A request with the headers. -/
def jobWith (headers : HeaderMap) : Job :=
  { postJob with req := { postJob.req with headers := headers } }

/-- A field that lists a header and has a Latin-1 name beside it. -/
def latin1Listed : HeaderMap :=
  [(connection, [0x78, 0x2D, 0x61, 0x2C, 0xE9]), ("x-a".toList, [0x31])]

/-- A field that lists a header in another case. -/
def asciiListed : HeaderMap := [(connection, [0x58, 0x2D, 0x41]), ("x-a".toList, [0x31])]

theorem hop_headers_ascii :
    ForwardsExactly .sample (jobWith asciiListed) ∧ StripsExactly asciiListed := by
  have hvalid : asciiListed.Valid := ⟨by decide +kernel, by decide +kernel⟩
  have hread : ∀ skipped, ListedReadably asciiListed skipped := by
    intro skipped h hm hhop _
    have hall : ∀ h ∈ asciiListed, listedInAscii asciiListed h.1 = true ∨ isHopByHop h.1 = true := by
      decide
    intro _
    exact (hall h hm).resolve_right (by rw [hhop]; decide)
  refine (hop_headers_iff .sample (jobWith asciiListed) asciiListed (fun _ _ => rfl) hvalid hvalid).1.mpr
    ⟨?_, hread _, hread _⟩
  intro h hm _ _
  revert h
  decide

/-- A Latin-1 value is emptied, and what a Latin-1 field lists is kept. -/
theorem hop_headers_latin1 :
    ¬ ForwardsExactly .sample (jobWith [("x-note".toList, [0xE9])]) ∧
      ¬ ForwardsExactly .sample (jobWith latin1Listed) ∧ ¬ StripsExactly latin1Listed :=
  ⟨fun h => absurd (h [] "x-note".toList) (by decide), fun h => absurd (h [] "x-a".toList) (by decide),
    by unfold StripsExactly; decide⟩

end

end Thttpd.Migrate
