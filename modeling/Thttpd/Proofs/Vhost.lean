/-
Which directory a virtual host selects.

The host of a request goes in front of its path as it came, in lower case.  So letter
case does not matter, but a port does, and a host with a slash or a leading dot is no
name of a directory below the root at all; the legacy server cuts the port off and
refuses such hosts.  Two requests are compared that differ in their Host value alone,
from their bytes to the file they are resolved to.

The comparison has two halves.  From the bytes to the host and the path, a request is
a line, some headers and the value of its first Host line (`HostRequest`), and what
is read of two of them differs in the host alone.  From there to the file, the host
is a name in front of a path, and two names lead to two files unless they are the
same.
-/
import Thttpd.Proofs.Confinement
import Thttpd.Proofs.Headers

namespace Thttpd

open Text Fs

/-! ### Hosts

A host is what stands in the header, so it can be anything a line can hold.  What has
to be known of the library's lower case is small and is listed in `LowersHosts`.
-/

/-- A port as it follows a host name, or nothing. -/
def IsPort (p : Str) : Prop :=
  p = [] ∨ ∃ digits, p = ':' :: digits ∧ ∀ c ∈ digits, c.isDigit = true

/-- Two hosts with one name: they differ in letter case and in their ports only. -/
def SameName (lower : Str → Str) (host₁ host₂ : Str) : Prop :=
  ∃ name₁ port₁ name₂ port₂, host₁ = name₁ ++ port₁ ∧ host₂ = name₂ ++ port₂ ∧
    lower name₁ = lower name₂ ∧ IsPort port₁ ∧ IsPort port₂

/-- A host the legacy server refuses. -/
def badHost (host : Str) : Bool := host.contains '/' || host.head? == some '.'

/--
What `str::to_lowercase` does with hosts: letter case is lost, a port is no letter,
and no other character becomes a slash.
-/
structure LowersHosts (lower : Str → Str) : Prop where
  lowercases : Lowercases lower
  blind : ∀ s t, asciiLower s = asciiLower t → lower s = lower t
  port : ∀ s p, IsPort p → lower (s ++ p) = lower s ++ p
  slash : ∀ s, '/' ∈ lower s → '/' ∈ s

theorem IsPort.noSlash {p : Str} (h : IsPort p) : '/' ∉ p := by
  rcases h with rfl | ⟨digits, rfl, hdigits⟩
  · simp
  · intro hmem
    rcases List.mem_cons.mp hmem with heq | hmem
    · cases heq
    · exact absurd (hdigits _ hmem) (by decide)

/-- Only letters become letters in lower case. -/
theorem eq_of_toLower {c d : Char} (hd : d.toNat < 97) (h : c.toLower = d) : c = d := by
  apply Char.toNat_inj.mp
  have hnat := congrArg Char.toNat h
  rw [toLower_toNat] at hnat
  split at hnat <;> omega

/-- The lower case of a character has a first one, and it is a dot only for a dot. -/
theorem lowersTo_head {c : Char} {s : Str} (h : LowersTo c s) :
    ∃ d rest, s = d :: rest ∧ (d = '.' → c = '.') := by
  cases h with
  | ascii hc => exact ⟨_, _, rfl, eq_of_toLower (by decide)⟩
  | kelvin => exact ⟨_, _, rfl, fun h => by cases h⟩
  | dotted => exact ⟨_, _, rfl, fun h => by cases h⟩
  | other hc hk hd =>
      refine ⟨_, _, rfl, fun h => ?_⟩
      rw [h] at hd
      exact absurd hd (by decide)

namespace LowersHosts

variable {lower : Str → Str} (h : LowersHosts lower)

include h

theorem nil : lower [] = [] := by
  obtain ⟨parts, hparts, heq⟩ := h.lowercases []
  cases hparts
  exact heq

theorem head (c : Char) (s : Str) :
    ∃ d rest, lower (c :: s) = d :: rest ∧ (d = '.' → c = '.') := by
  obtain ⟨parts, hparts, heq⟩ := h.lowercases (c :: s)
  cases hparts with
  | cons hc hs =>
      obtain ⟨d, rest, rfl, hdot⟩ := lowersTo_head hc
      exact ⟨d, _, by rw [heq, List.flatten_cons, List.cons_append], hdot⟩

theorem ne_nil {host : Str} (hne : host ≠ []) : lower host ≠ [] := by
  obtain ⟨c, s, rfl⟩ := List.exists_cons_of_ne_nil hne
  obtain ⟨d, rest, heq, -⟩ := h.head c s
  simp [heq]

/-- Hosts that differ in the case of ASCII letters have one name. -/
theorem sameName {host₁ host₂ : Str} (heq : asciiLower host₁ = asciiLower host₂) :
    SameName lower host₁ host₂ :=
  ⟨host₁, [], host₂, [], (List.append_nil _).symm, (List.append_nil _).symm, h.blind _ _ heq,
    .inl rfl, .inl rfl⟩

theorem eq_nil_iff {host₁ host₂ : Str} (heq : lower host₁ = lower host₂) :
    host₁ = [] ↔ host₂ = [] := by
  constructor
  · rintro rfl
    by_contra hne
    exact h.ne_nil hne (heq.symm.trans h.nil)
  · rintro rfl
    by_contra hne
    exact h.ne_nil hne (heq.trans h.nil)

/-- A host that is not refused is a plain name in lower case, too. -/
theorem plain {host : Str} (hbad : badHost host = false) :
    '/' ∉ lower host ∧ (lower host).head? ≠ some '.' := by
  simp only [badHost, Bool.or_eq_false_iff, List.contains_eq_mem, decide_eq_false_iff_not,
    beq_eq_false_iff_ne] at hbad
  refine ⟨fun hmem => hbad.1 (h.slash host hmem), ?_⟩
  cases host with
  | nil => simp [h.nil]
  | cons c s =>
      obtain ⟨d, rest, heq, hdot⟩ := h.head c s
      rw [heq]
      intro hd
      exact hbad.2 (by simp [hdot (by simpa using hd)])

end LowersHosts

/-! ### Names in front of a path

A path is joined to the root component by component, so what stands in front of the
first slash is a component of its own, unless it holds slashes or dots, or is empty.
-/

/-- A plain name is one component. -/
theorem parse_comps_name {s : Str} (h : '/' ∉ s) :
    (Path.parse s).comps = if s = [] then [] else [s] := by
  unfold Path.parse
  simp only
  rw [List.splitOn_eq_singleton h]
  cases s <;> simp

/-- A path cut at a slash and continued without one. -/
theorem parse_comps_append_inj {s p q : Str} (hp : '/' ∉ p) (hq : '/' ∉ q)
    (h : (Path.parse (s ++ p)).comps = (Path.parse (s ++ q)).comps) : p = q := by
  have hname : ∀ {t : Str}, '/' ∉ t → (Path.parse (t ++ p)).comps = (Path.parse (t ++ q)).comps →
      p = q := by
    intro t ht heq
    rw [parse_comps_name (by simp [ht, hp]), parse_comps_name (by simp [ht, hq])] at heq
    split at heq <;> split at heq <;> simp_all
  cases hs : rsplitOnce '/' s with
  | none => exact hname (notMem_of_rsplitOnce hs) h
  | some pair =>
      obtain ⟨a, b⟩ := pair
      obtain ⟨rfl, hb⟩ := rsplitOnce_eq_some hs
      rw [List.append_assoc, List.append_assoc, List.cons_append, List.cons_append,
        Path.parse_comps_append, Path.parse_comps_append] at h
      exact hname hb (List.append_cancel_left h)

/-- Two continuations of a name in front of a path lead to two files. -/
theorem join_name_inj {root : Path} {s p q path : Str} (hp : '/' ∉ p) (hq : '/' ∉ q)
    (hsp : s ++ p ≠ []) (hsq : s ++ q ≠ [])
    (h : root.join (s ++ p ++ '/' :: path) = root.join (s ++ q ++ '/' :: path)) : p = q := by
  have hhead : (s ++ p ++ '/' :: path).head? = some '/' ↔
      (s ++ q ++ '/' :: path).head? = some '/' := by
    cases s with
    | cons c s => simp
    | nil =>
        obtain ⟨c, p, rfl⟩ := List.exists_cons_of_ne_nil hsp
        obtain ⟨d, q, rfl⟩ := List.exists_cons_of_ne_nil hsq
        simp only [List.nil_append, List.cons_append, List.head?_cons, Option.some.injEq]
        refine ⟨fun hc => absurd ?_ hp, fun hd => absurd ?_ hq⟩ <;> simp [*]
  have hcomps := congrArg Path.comps h
  refine parse_comps_append_inj (s := s) hp hq ?_
  by_cases habs : (s ++ p ++ '/' :: path).head? = some '/'
  · rw [Path.join, if_pos habs, Path.join, if_pos (hhead.mp habs), Path.parse_comps_append,
      Path.parse_comps_append] at hcomps
    exact List.append_cancel_right hcomps
  · rw [(Path.join_of_relative habs).2, (Path.join_of_relative fun h => habs (hhead.mpr h)).2,
      Path.parse_comps_append, Path.parse_comps_append] at hcomps
    exact List.append_cancel_right (List.append_cancel_left hcomps)

/-! ### Requests that differ in their host

The request line and the other headers stay, so all but the host is read from the
same bytes.  A header in front of the Host line could read like one to the server,
which compares in lower case, and is ruled out.
-/

/-- A request but for the value of its first Host line. -/
structure HostRequest where
  line : Bytes
  before : List Bytes
  /-- `Host:`, in any letter case. -/
  label : Bytes
  after : Bytes
  lineNoEol : NoEol line
  lineBlank : ∃ c ∈ line, isBlank c = true
  beforeNoEol : ∀ l ∈ before, NoEol l
  beforeOther : ∀ l ∈ before, reads "Host" l = false
  labelHost : eqIgnoreAsciiCase (label.map byteChar) (searchText "Host") = true

namespace HostRequest

/-- The request with a value. -/
def bytes (r : HostRequest) (value : Bytes) : Bytes :=
  r.line ++ 13 :: 10 :: (r.before.flatMap (· ++ [13, 10])
    ++ (r.label ++ value ++ 13 :: 10 :: r.after))

end HostRequest

/-- The host a value stands for. -/
def hostText (value : Bytes) : Str := trim (fromUtf8Lossy value)

theorem fromUtf8Lossy_crlf (a b : Bytes) :
    fromUtf8Lossy (a ++ 13 :: 10 :: b) = fromUtf8Lossy a ++ '\r' :: '\n' :: fromUtf8Lossy b := by
  rw [fromUtf8Lossy_cr, fromUtf8Lossy_cons (by decide)]
  rfl

theorem lines_noEol {l : Bytes} (h : NoEol l) (rest : Bytes) :
    lines (fromUtf8Lossy (l ++ 13 :: 10 :: rest)) = fromUtf8Lossy l :: lines (fromUtf8Lossy rest) := by
  rw [fromUtf8Lossy_crlf, lines_crlf (lf_notMem_fromUtf8Lossy (h.notMem (by decide)))]

theorem lines_flatMap {ls : List Bytes} (h : ∀ l ∈ ls, NoEol l) (rest : Bytes) :
    lines (fromUtf8Lossy (ls.flatMap (· ++ [13, 10]) ++ rest))
      = ls.map fromUtf8Lossy ++ lines (fromUtf8Lossy rest) := by
  induction ls with
  | nil => rfl
  | cons l ls ih =>
      have htail := ih fun m hm => h m (List.mem_cons_of_mem l hm)
      have hcut : (l :: ls).flatMap (· ++ [13, 10]) ++ rest
          = l ++ 13 :: 10 :: (ls.flatMap (· ++ [13, 10]) ++ rest) := by simp
      rw [hcut, lines_noEol (h l List.mem_cons_self), htail]
      rfl

theorem plainName_host : PlainName "Host" := plainName_of_mem (by decide)

/-- A line reads as a Host line for the server when its lower case starts like one. -/
theorem reads_host {pf : Platform} (hlower : Lowercases pf.toLowercase) (l : Bytes) :
    (pf.toLowercase (searchText "Host")).isPrefixOf (pf.toLowercase (fromUtf8Lossy l))
      = reads "Host" l := by
  rw [hlower.of_ascii plainName_host.ascii,
    hlower.isPrefixOf plainName_host.lowered plainName_host.last]
  rfl

namespace HostRequest

variable (r : HostRequest)

theorem label_length : r.label.length = (searchText "Host").length := by
  have h : asciiLower (r.label.map byteChar) = asciiLower (searchText "Host") := by
    simpa [eqIgnoreAsciiCase] using r.labelHost
  simpa [asciiLower] using congrArg List.length h

theorem named_host (value : Bytes) : named "Host" (r.label ++ value) = true := by
  unfold named
  rw [← r.label_length, List.take_left]
  exact r.labelHost

theorem label_ascii : ∀ b ∈ r.label, b < 0x80 := by
  have h := (named_ascii plainName_host (r.named_host [])).1
  rwa [← r.label_length, List.take_left] at h

theorem label_noEol : NoEol r.label := by
  have hlow : asciiLower (r.label.map byteChar) = asciiLower (searchText "Host") := by
    simpa [eqIgnoreAsciiCase] using r.labelHost
  constructor
  intro c hc
  by_contra heol
  have hmem : (byteChar c).toLower ∈ asciiLower (searchText "Host") := by
    rw [← hlow]
    exact List.mem_map_of_mem (List.mem_map_of_mem hc)
  rcases isEol_iff.mp (Bool.not_eq_false _ ▸ heol) with rfl | rfl
  · exact absurd hmem (by decide)
  · exact absurd hmem (by decide)

theorem reads_label (value : Bytes) : reads "Host" (r.label ++ value) = true := by
  have hfold : (r.label.map byteChar).map foldChar = asciiLower (r.label.map byteChar) := by
    refine List.map_congr_left fun c hc => foldChar_of_ascii ?_
    obtain ⟨b, hb, rfl⟩ := List.mem_map.mp hc
    have : b.toNat < 128 := r.label_ascii b hb
    simpa [isAscii, byteChar_toNat] using this
  have hlow : asciiLower (r.label.map byteChar) = asciiLower (searchText "Host") := by
    simpa [eqIgnoreAsciiCase] using r.labelHost
  unfold reads
  rw [fromUtf8Lossy_ascii_append r.label_ascii, List.map_append, hfold, hlow,
    List.isPrefixOf_iff_prefix]
  exact List.prefix_append _ _

/--
**The host of the request is the value**, trimmed.

The header line is the first with the name, and the value has no line end in it.
-/
theorem extractHeader_host {pf : Platform} (hlower : Lowercases pf.toLowercase) {value : Bytes}
    (hvalue : NoEol value) :
    extractHeader pf (headerBytes (r.bytes value)) "Host" = some (hostText value) := by
  have hline : (10 : UInt8) ∉ r.line ++ [13] := by
    have := r.lineNoEol.notMem (c := 10) (by decide)
    simp [this]
  have hcut : r.bytes value = (r.line ++ [13]) ++ 10 :: (r.before.flatMap (· ++ [13, 10])
      ++ (r.label ++ value ++ 13 :: 10 :: r.after)) := by
    simp [bytes]
  have hskip : (r.before.map fromUtf8Lossy).find? (fun line =>
      (pf.toLowercase (searchText "Host")).isPrefixOf (pf.toLowercase line)) = none := by
    rw [List.find?_eq_none]
    intro line hmem
    obtain ⟨l, hl, rfl⟩ := List.mem_map.mp hmem
    rw [reads_host hlower, r.beforeOther l hl]
    simp
  show ((lines (fromUtf8Lossy (headerBytes (r.bytes value)))).find? fun line =>
    (pf.toLowercase (searchText "Host")).isPrefixOf (pf.toLowercase line)).map (fun line =>
      trim (dropBytes (byteLen (searchText "Host")) line)) = _
  rw [hcut, headerBytes_lf hline, lines_flatMap r.beforeNoEol,
    lines_noEol (r.label_noEol.append hvalue), List.find?_append, hskip, Option.none_or,
    List.find?_cons_of_pos (by rw [reads_host hlower, r.reads_label]), Option.map_some]
  have hdrop := dropBytes_serverText plainName_host (l := ⟨r.label ++ value, true, []⟩)
    (r.named_host value)
  simp only [HeadLine.serverText, List.append_nil, ← r.label_length, List.drop_left] at hdrop
  rw [hdrop]
  rfl

theorem takeWhile_line (value : Bytes) : (r.bytes value).takeWhile (· != 13) = r.line := by
  unfold bytes
  rw [(r.lineNoEol.cut (by decide)).1]
  simp

theorem methodWord_line (value : Bytes) :
    (r.bytes value).takeWhile (fun b => b != 32 && b != 9)
      = r.line.takeWhile fun b => b != 32 && b != 9 := by
  obtain ⟨c, hc, hblank⟩ := r.lineBlank
  unfold bytes
  rw [List.takeWhile_append, if_neg]
  intro hlen
  have hall := List.takeWhile_eq_self_iff.mp
    ((List.takeWhile_prefix fun b : UInt8 => b != 32 && b != 9).eq_of_length hlen) c hc
  rcases isBlank_iff.mp hblank with rfl | rfl <;> simp at hall

end HostRequest

/-- What is read of a request line but the host. -/
def HttpConn.lineFields (http : HttpConn) : Method × Bool × Str × Str :=
  (http.method, http.oneOne, http.encodedUrl, http.decodedUrl)

theorem HostRequest.sameLine (r : HostRequest) {pf : Platform} {http₁ http₂ : HttpConn}
    {value₁ value₂ : Bytes} (h₁ : http₁.requestBytes = r.bytes value₁)
    (h₂ : http₂.requestBytes = r.bytes value₂) :
    (readRequestLine pf http₁).lineFields = (readRequestLine pf http₂).lineFields := by
  have hwords : requestWords http₁.requestBytes = requestWords http₂.requestBytes := by
    unfold requestWords
    rw [h₁, h₂, r.takeWhile_line, r.takeWhile_line]
  have hmethod : parseMethod http₁.readBuf http₁.checkedIdx
      = parseMethod http₂.readBuf http₂.checkedIdx := by
    show Method.parse (fromUtf8Lossy (http₁.requestBytes.takeWhile _)) =
      Method.parse (fromUtf8Lossy (http₂.requestBytes.takeWhile _))
    rw [h₁, h₂, r.methodWord_line, r.methodWord_line]
  simp only [HttpConn.lineFields, readRequestLine, hwords, hmethod]

theorem HostRequest.host_eq (r : HostRequest) {pf : Platform}
    (hlower : Lowercases pf.toLowercase) {http : HttpConn} {value : Bytes} (hvalue : NoEol value)
    (h : http.requestBytes = r.bytes value) : (readRequestLine pf http).host = hostText value := by
  show (extractHeader pf (headerBytes http.requestBytes) "Host").getD [] = _
  rw [h, r.extractHeader_host hlower hvalue]
  rfl

/-! ### The file of a request

Up to the file no tree is asked for anything: a request is resolved by its line, its
host and the configuration.
-/

theorem readRequest_lineFields (pf : Platform) (http : HttpConn) :
    (readRequest pf http).lineFields = (readRequestLine pf http).lineFields :=
  readRequest_line _ (fun _ _ _ _ => rfl) (fun _ _ => rfl) (fun _ _ => rfl) pf http

theorem readRequest_host (pf : Platform) (http : HttpConn) :
    (readRequest pf http).host = (readRequestLine pf http).host :=
  readRequest_line _ (fun _ _ _ _ => rfl) (fun _ _ => rfl) (fun _ _ => rfl) pf http

/-- The file `process_request` resolves a request to, if it gets that far. -/
def resolvedFile (pf : Platform) (cfg : ServerConfig) (http : HttpConn) : Option Path :=
  match requestLineCheck (readRequestLine pf http) with
  | some _ => none
  | none =>
      if maxUrlLength < byteLen (readRequest pf http).encodedUrl then none
      else (normalizePath (readRequest pf http).decodedUrl).map
        (requestFile pf cfg (readRequest pf http))

/-- A request with a known method and a URL that is not too long. -/
def servable (http : HttpConn) : Bool :=
  decide (http.method ≠ .unknown) && decide (byteLen http.encodedUrl ≤ maxUrlLength)

/-- The cleaned path of a request that is not refused for anything but its host. -/
def servedPath (http : HttpConn) : Option Str :=
  if servable http then normalizePath http.decodedUrl else none

/-- It is the file of the cleaned path, if there is one. -/
theorem resolvedFile_eq (pf : Platform) (cfg : ServerConfig) (http : HttpConn) :
    resolvedFile pf cfg http =
      if (readRequestLine pf http).oneOne && (readRequestLine pf http).host.isEmpty then none
      else (servedPath (readRequestLine pf http)).map
        (requestFile pf cfg (readRequest pf http)) := by
  have hline := readRequest_lineFields pf http
  simp only [HttpConn.lineFields, Prod.mk.injEq] at hline
  obtain ⟨-, -, hurl, hpath⟩ := hline
  unfold resolvedFile requestLineCheck servedPath servable
  rw [hurl, hpath]
  split
  · rename_i e he
    split at he
    · rename_i hempty
      rw [if_pos hempty]
    · rename_i hempty
      rw [if_neg hempty]
      split at he
      · rename_i hunknown
        simp [hunknown]
      · cases he
  · rename_i hnone
    split at hnone
    · cases hnone
    · rename_i hempty
      rw [if_neg hempty]
      split at hnone
      · cases hnone
      · rename_i hknown
        by_cases hlong : maxUrlLength < byteLen (readRequestLine pf http).encodedUrl
        · rw [if_pos hlong, if_neg (by simp [hlong])]
          rfl
        · rw [if_neg hlong, if_pos (by simp [hknown]; omega)]

/-- The file that is served is the one the request is resolved to. -/
theorem route_static_resolvedFile {pf : Platform} {cfg : ServerConfig} {w : World}
    {http http' : HttpConn} {file : Path} (h : route pf cfg w http = .static http' file) :
    resolvedFile pf cfg http = some file := by
  unfold route routeUrl routePath at h
  split at h
  · cases h
  rename_i hcheck
  split at h
  · cases h
  rename_i hlong
  split at h
  · cases h
  rename_i normalized hclean
  split at h
  · cases h
  split at h
  · cases h
  cases h
  unfold resolvedFile
  rw [hcheck]
  simp only [if_neg hlong]
  rw [hclean]
  rfl

/-- The file of a path under a host. -/
def hostFile (pf : Platform) (cfg : ServerConfig) (host path : Str) : Path :=
  docFile cfg (if host = [] then path else '/' :: (pf.toLowercase host ++ path))

/-- With a virtual host the file is in its directory. -/
theorem requestFile_eq_hostFile {pf : Platform} {cfg : ServerConfig} (hvhost : cfg.vhost = true)
    (http : HttpConn) (path : Str) :
    requestFile pf cfg http path = hostFile pf cfg http.host path := by
  unfold requestFile hostFile
  by_cases hhost : http.host = []
  · have hoff : vhostApplies cfg http = false := by simp [vhostApplies, hhost]
    rw [applyVhost_off { http with origFilename := path } hoff, if_pos hhost]
  · have hon : vhostApplies cfg http = true := by simp [vhostApplies, hvhost, hhost]
    rw [applyVhost_on { http with origFilename := path } hon, if_neg hhost]

theorem hostFile_of_ne_nil (pf : Platform) (cfg : ServerConfig) {host path : Str}
    (hhost : host ≠ []) (hpath : path ≠ []) :
    hostFile pf cfg host path = cfg.root.join (pf.toLowercase host ++ path) := by
  unfold hostFile docFile
  rw [if_neg hhost, if_neg (by simp [hpath])]
  rfl

theorem CleanPath.ne_nil {path : Str} (h : CleanPath path) : path ≠ [] := by
  obtain ⟨rest, rfl, -⟩ := h.slash
  simp

/-- A port alone is a directory of its own. -/
theorem hostFile_port_ne {pf : Platform} (hlower : LowersHosts pf.toLowercase)
    (cfg : ServerConfig) {port path : Str} (hport : IsPort port) (hne : port ≠ [])
    (hpath : CleanPath path) : hostFile pf cfg [] path ≠ hostFile pf cfg port path := by
  rw [hostFile_of_ne_nil pf cfg hne hpath.ne_nil]
  obtain ⟨rest, rfl, hrel⟩ := hpath.slash
  have hlow : pf.toLowercase port = port := by
    simpa [hlower.nil] using hlower.port [] port hport
  have hhead : (port ++ '/' :: rest).head? ≠ some '/' := by
    obtain ⟨c, p, rfl⟩ := List.exists_cons_of_ne_nil hne
    intro h
    exact hport.noSlash (by simp_all)
  intro heq
  have hcomps := congrArg Path.comps heq
  rw [hlow, (Path.join_of_relative hhead).2, Path.parse_comps_append,
    parse_comps_name hport.noSlash, if_neg hne] at hcomps
  unfold hostFile docFile at hcomps
  rw [if_pos rfl] at hcomps
  split at hcomps
  · rename_i hroot
    cases hroot
    have hindex : "index.html".toList = port := by
      have h : [("index.html".toList : Str)] = [port] := List.append_cancel_left
        (((Path.join_of_relative (by decide)).2.symm.trans hcomps).trans (by rfl))
      simpa using h
    rcases hport with rfl | ⟨digits, rfl, -⟩
    · exact hne rfl
    · exact absurd (congrArg List.head? hindex) (by simp)
  · rw [List.drop_one, List.tail_cons, (Path.join_of_relative hrel).2] at hcomps
    have hlen := congrArg List.length (List.append_cancel_left hcomps)
    simp at hlen

/--
**Two hosts of one name lead to one file only if they are the same but for letter
case.**

The host is put into the path as it came, with its port, so another port is another
directory.
-/
theorem lower_eq_of_hostFile {pf : Platform} (hlower : LowersHosts pf.toLowercase)
    (cfg : ServerConfig) {host₁ host₂ path : Str}
    (hname : SameName pf.toLowercase host₁ host₂) (hpath : CleanPath path) (h : hostFile pf cfg host₁ path = hostFile pf cfg host₂ path) :
    pf.toLowercase host₁ = pf.toLowercase host₂ := by
  obtain ⟨n₁, p₁, n₂, p₂, rfl, rfl, hn, hp₁, hp₂⟩ := hname
  have hports : p₁ = p₂ := by
    by_cases h₁ : n₁ ++ p₁ = []
    · obtain ⟨rfl, rfl⟩ := List.append_eq_nil_iff.mp h₁
      obtain rfl := (hlower.eq_nil_iff hn).mp rfl
      by_contra hne
      exact hostFile_port_ne hlower cfg hp₂ (Ne.symm hne) hpath h
    by_cases h₂ : n₂ ++ p₂ = []
    · obtain ⟨rfl, rfl⟩ := List.append_eq_nil_iff.mp h₂
      obtain rfl := (hlower.eq_nil_iff hn).mpr rfl
      by_contra hne
      exact hostFile_port_ne hlower cfg hp₁ hne hpath h.symm
    rw [hostFile_of_ne_nil pf cfg h₁ hpath.ne_nil, hostFile_of_ne_nil pf cfg h₂ hpath.ne_nil,
      hlower.port _ _ hp₁, hlower.port _ _ hp₂, hn] at h
    have hlow₁ := hlower.ne_nil h₁
    have hlow₂ := hlower.ne_nil h₂
    rw [hlower.port _ _ hp₁, hn] at hlow₁
    rw [hlower.port _ _ hp₂] at hlow₂
    obtain ⟨rest, rfl, -⟩ := hpath.slash
    exact join_name_inj hp₁.noSlash hp₂.noSlash hlow₁ hlow₂ h
  rw [hlower.port _ _ hp₁, hlower.port _ _ hp₂, hn, hports]

theorem hostFile_congr {pf : Platform} (hlower : LowersHosts pf.toLowercase)
    (cfg : ServerConfig) {host₁ host₂ : Str}
    (h : pf.toLowercase host₁ = pf.toLowercase host₂) (path : Str) : hostFile pf cfg host₁ path = hostFile pf cfg host₂ path := by
  unfold hostFile
  simp only [hlower.eq_nil_iff h, h]

/-- A file in a directory of its own below the root. -/
def InSubdirectory (root file : Path) : Prop :=
  ∃ name rest, name ≠ [] ∧ '/' ∉ name ∧ name ≠ Path.dot ∧ name ≠ Path.dotdot ∧
    Path.dotdot ∉ rest ∧ file.absolute = root.absolute ∧ file.comps = root.comps ++ name :: rest

theorem hostFile_inSubdirectory {pf : Platform} (hlower : LowersHosts pf.toLowercase)
    (cfg : ServerConfig) {host path : Str} (hne : host ≠ []) (hgood : badHost host = false)
    (hpath : CleanPath path) : InSubdirectory cfg.root (hostFile pf cfg host path) := by
  obtain ⟨hslash, hdot⟩ := hlower.plain hgood
  have hlow := hlower.ne_nil hne
  have hno := hpath.noDotdot
  rw [hostFile_of_ne_nil pf cfg hne hpath.ne_nil]
  obtain ⟨rest, rfl, -⟩ := hpath.slash
  have hhead : (pf.toLowercase host ++ '/' :: rest).head? ≠ some '/' := by
    obtain ⟨c, s, hcs⟩ := List.exists_cons_of_ne_nil hlow
    rw [hcs] at hslash ⊢
    intro h
    exact hslash (by simp_all)
  obtain ⟨habs, hcomps⟩ := Path.join_of_relative (p := cfg.root) hhead
  rw [Path.parse_comps_append, parse_comps_name hslash, if_neg hlow] at hcomps
  rw [Path.parse_comps_cons] at hno
  refine ⟨_, _, hlow, hslash, ?_, ?_, hno, habs, hcomps⟩
  · rintro h
    exact hdot (by rw [h]; rfl)
  · rintro h
    exact hdot (by rw [h]; rfl)

/-! ### Refusals

A refusal for the host does not exist in this server.  A 400 for a request with a
host is one for its path.
-/

/-- The request is answered with an error page of the status. -/
def RefusedWith (pf : Platform) (cfg : ServerConfig) (w : World) (http : HttpConn) (status : Nat) :
    Prop :=
  ∃ http' e, route pf cfg w http = .refused http' e ∧ e.status = status

/--
**A request with a host is refused as a bad one only for an empty segment of its
path.**
-/
theorem refusedWith_400_iff {pf : Platform} (cfg : ServerConfig) (w : World) {http : HttpConn}
    (hhost : (readRequestLine pf http).host ≠ []) :
    RefusedWith pf cfg w http 400 ↔
      servable (readRequestLine pf http) = true ∧
        containsStr ['/', '/'] (readRequestLine pf http).decodedUrl = true := by
  have hline := readRequest_lineFields pf http
  simp only [HttpConn.lineFields, Prod.mk.injEq] at hline
  obtain ⟨-, -, hurl, hpath⟩ := hline
  unfold RefusedWith route requestLineCheck
  rw [if_neg (by simp [hhost])]
  by_cases hunknown : (readRequestLine pf http).method = .unknown
  · rw [if_pos hunknown]
    simp [servable, hunknown, ErrorReply.notImplemented]
  rw [if_neg hunknown]
  simp only [routeUrl, hurl, hpath]
  by_cases hlong : maxUrlLength < byteLen (readRequestLine pf http).encodedUrl
  · rw [if_pos hlong]
    simp [servable, hlong, ErrorReply.internalError]
  rw [if_neg hlong]
  have hservable : servable (readRequestLine pf http) = true := by
    simp [servable, hunknown]
    omega
  rw [hservable]
  by_cases hslash : containsStr ['/', '/'] (readRequestLine pf http).decodedUrl = true
  · have hnone : normalizePath (readRequestLine pf http).decodedUrl = none := if_pos hslash
    simp [hnone, hslash, badPathReply, ErrorReply.badRequest]
  · cases hnorm : normalizePath (readRequestLine pf http).decodedUrl with
    | none => simp [hslash, badPathReply, ErrorReply.notFound]
    | some normalized =>
        unfold routePath
        simp only [hslash]
        split
        · simp
        · split <;> simp [ErrorReply.forbidden]

/-! ### Selection by name

The three parts of the property, and the two conditions under which all of them
hold.
-/

/--
Two requests that differ in the host select by its name: they are resolved to one
file, a bad host is refused, and any other leads into a directory of its own.
-/
structure SelectsByName (pf : Platform) (cfg : ServerConfig) (w : World) (http₁ http₂ : HttpConn) :
    Prop where
  same : resolvedFile pf cfg http₁ = resolvedFile pf cfg http₂
  refused : ∀ http ∈ [http₁, http₂], badHost (readRequestLine pf http).host = true →
    RefusedWith pf cfg w http 400
  below : ∀ http ∈ [http₁, http₂], (readRequestLine pf http).host ≠ [] →
    ¬ RefusedWith pf cfg w http 400 →
    ∀ file, resolvedFile pf cfg http = some file → InSubdirectory cfg.root file

theorem servedPath_clean {http : HttpConn} {path : Str} (h : servedPath http = some path) :
    CleanPath path := by
  unfold servedPath at h
  split at h
  · exact normalizePath_clean h
  · cases h

/-- With virtual hosts, the file is that of the cleaned path under the host. -/
theorem resolvedFile_hostFile {pf : Platform} {cfg : ServerConfig} (hvhost : cfg.vhost = true)
    (http : HttpConn) : resolvedFile pf cfg http =
      if (readRequestLine pf http).oneOne && (readRequestLine pf http).host.isEmpty then none
      else (servedPath (readRequestLine pf http)).map
        (hostFile pf cfg (readRequestLine pf http).host) := by
  rw [resolvedFile_eq]
  congr 2
  funext path
  rw [requestFile_eq_hostFile hvhost, readRequest_host]

/--
**One file for both hosts**, exactly when they are the same but for letter case or
the request is resolved to none.
-/
theorem resolvedFile_eq_iff {pf : Platform} (hlower : LowersHosts pf.toLowercase)
    {cfg : ServerConfig} (hvhost : cfg.vhost = true) {http₁ http₂ : HttpConn}
    (hline : (readRequestLine pf http₁).lineFields = (readRequestLine pf http₂).lineFields)
    (hname : SameName pf.toLowercase (readRequestLine pf http₁).host
      (readRequestLine pf http₂).host) :
    resolvedFile pf cfg http₁ = resolvedFile pf cfg http₂ ↔
      ((servedPath (readRequestLine pf http₁)).isSome = true →
        pf.toLowercase (readRequestLine pf http₁).host
          = pf.toLowercase (readRequestLine pf http₂).host) := by
  rw [resolvedFile_hostFile hvhost, resolvedFile_hostFile hvhost]
  simp only [HttpConn.lineFields, Prod.mk.injEq] at hline
  obtain ⟨hmethod, hone, hurl, hpath⟩ := hline
  have hserved : servedPath (readRequestLine pf http₂) = servedPath (readRequestLine pf http₁) := by
    unfold servedPath servable
    rw [hmethod, hurl, hpath]
  rw [hserved, ← hone]
  cases hsome : servedPath (readRequestLine pf http₁) with
  | none => simp
  | some path =>
      have hclean := servedPath_clean hsome
      simp only [Option.map_some, Option.isSome_some, forall_const]
      constructor
      · intro h
        by_contra hne
        split at h
        · rename_i h₁
          split at h
          · rename_i h₂
            simp only [Bool.and_eq_true, List.isEmpty_iff] at h₁ h₂
            exact hne (by rw [h₁.2, h₂.2])
          · cases h
        · split at h
          · cases h
          · exact hne (lower_eq_of_hostFile hlower cfg hname hclean (Option.some.inj h))
      · intro h
        have hempty : (readRequestLine pf http₁).host.isEmpty
            = (readRequestLine pf http₂).host.isEmpty := by
          rw [Bool.eq_iff_iff, List.isEmpty_iff, List.isEmpty_iff]
          exact hlower.eq_nil_iff h
        rw [hempty, hostFile_congr hlower cfg h]

/-- Both of a pair, one at a time. -/
theorem forall_mem_pair {α : Type} {P : α → Prop} {a b : α} :
    (∀ x ∈ [a, b], P x) ↔ P a ∧ P b := by
  simp

/--
**A virtual host selects by its name exactly when**, unless the request is resolved
to no file, the two hosts are the same but for letter case, and a bad host comes
with a path that is refused as a bad one itself.  The file a request is resolved to
is the one it is served, if it is served one.

Two requests that differ in nothing but the host are compared, so what is said is
about the part the host plays.
-/
theorem vhost_selects_by_name_iff (pf : Platform) (hlower : LowersHosts pf.toLowercase)
    (cfg : ServerConfig) (hvhost : cfg.vhost = true) (w : World) (http₁ http₂ : HttpConn)
    (hline : (readRequestLine pf http₁).lineFields = (readRequestLine pf http₂).lineFields)
    (hname : SameName pf.toLowercase (readRequestLine pf http₁).host
      (readRequestLine pf http₂).host) :
    (SelectsByName pf cfg w http₁ http₂ ↔
      ((servedPath (readRequestLine pf http₁)).isSome = true →
        pf.toLowercase (readRequestLine pf http₁).host
          = pf.toLowercase (readRequestLine pf http₂).host) ∧
      (badHost (readRequestLine pf http₁).host = true ∨
          badHost (readRequestLine pf http₂).host = true →
        servable (readRequestLine pf http₁) = true ∧
          containsStr ['/', '/'] (readRequestLine pf http₁).decodedUrl = true)) ∧
    ∀ http http' file, route pf cfg w http = .static http' file →
      resolvedFile pf cfg http = some file := by
  refine ⟨?_, fun http http' file => route_static_resolvedFile⟩
  have hsame := resolvedFile_eq_iff hlower hvhost hline hname
  -- the second request is refused for its path when the first is
  have hpath : (servable (readRequestLine pf http₂) = true ∧
      containsStr ['/', '/'] (readRequestLine pf http₂).decodedUrl = true) ↔
      (servable (readRequestLine pf http₁) = true ∧
        containsStr ['/', '/'] (readRequestLine pf http₁).decodedUrl = true) := by
    simp only [HttpConn.lineFields, Prod.mk.injEq] at hline
    obtain ⟨hmethod, -, hurl, hdecoded⟩ := hline
    unfold servable
    rw [hmethod, hurl, hdecoded]
  have hne : ∀ {host : Str}, badHost host = true → host ≠ [] := by
    rintro host hbad rfl
    cases hbad
  constructor
  · intro h
    refine ⟨hsame.mp h.same, ?_⟩
    obtain ⟨href₁, href₂⟩ := forall_mem_pair.mp h.refused
    rintro (hbad | hbad)
    · exact (refusedWith_400_iff cfg w (hne hbad)).mp (href₁ hbad)
    · exact hpath.mp ((refusedWith_400_iff cfg w (hne hbad)).mp (href₂ hbad))
  · rintro ⟨hcase, hbads⟩
    have hrefused : ∀ http ∈ [http₁, http₂], badHost (readRequestLine pf http).host = true →
        RefusedWith pf cfg w http 400 := by
      refine forall_mem_pair.mpr ⟨fun hbad => ?_, fun hbad => ?_⟩
      · exact (refusedWith_400_iff cfg w (hne hbad)).mpr (hbads (.inl hbad))
      · exact (refusedWith_400_iff cfg w (hne hbad)).mpr (hpath.mpr (hbads (.inr hbad)))
    refine ⟨hsame.mpr hcase, hrefused, ?_⟩
    intro http hmem hhost haccepted file hfile
    have hgood : badHost (readRequestLine pf http).host = false := by
      rw [← Bool.not_eq_true]
      exact fun hbad => haccepted (hrefused http hmem hbad)
    rw [resolvedFile_hostFile hvhost, if_neg (by simp [hhost])] at hfile
    obtain ⟨path, hserved, rfl⟩ := Option.map_eq_some_iff.mp hfile
    exact hostFile_inSubdirectory hlower cfg hhost hgood (servedPath_clean hserved)

/-! ### A request for a file under a host

The sample platform lowers every character as the library does for ASCII and for the
two letters that become ASCII.
-/

theorem lowerChar_of_ascii {c : Char} (h : isAscii c = true) : lowerChar c = [c.toLower] := by
  have hk : c ≠ kelvinSign := by
    rintro rfl
    exact absurd h (by decide)
  have hi : c ≠ dottedI := by
    rintro rfl
    exact absurd h (by decide)
  rw [lowerChar, if_neg hk, if_neg hi]

theorem lowerChar_toLower (c : Char) : lowerChar c.toLower = lowerChar c := by
  cases hc : isAscii c with
  | false => rw [toLower_of_not_ascii hc]
  | true =>
      have hlt : c.toNat < 128 := by simpa [isAscii] using hc
      have hlow : isAscii c.toLower = true := by
        simp only [isAscii, decide_eq_true_eq, toLower_toNat]
        split <;> omega
      have htwice : c.toLower.toLower = c.toLower := by
        apply Char.toNat_inj.mp
        rw [toLower_toNat c.toLower, if_neg]
        rw [toLower_toNat]
        split <;> omega
      rw [lowerChar_of_ascii hc, lowerChar_of_ascii hlow, htwice]

theorem lowerText_port {p : Str} (h : IsPort p) : lowerText p = p := by
  have hchar : ∀ {c : Char}, c.toNat < 65 → lowerChar c = [c] := by
    intro c hc
    have hlow : c.toLower = c := by
      apply Char.toNat_inj.mp
      rw [toLower_toNat, if_neg (by omega)]
    rw [lowerChar_of_ascii (by simp only [isAscii, decide_eq_true_eq]; omega), hlow]
  have hall : ∀ c ∈ p, c.toNat < 65 := by
    intro c hc
    rcases h with rfl | ⟨digits, rfl, hdigits⟩
    · cases hc
    · rcases List.mem_cons.mp hc with rfl | hc
      · decide
      · have hdigit := hdigits c hc
        simp only [Char.isDigit, Bool.and_eq_true, decide_eq_true_eq] at hdigit
        have hle : c.toNat ≤ 57 := hdigit.2
        omega
  clear h
  unfold lowerText
  induction p with
  | nil => rfl
  | cons c p ih =>
      rw [List.flatMap_cons, hchar (hall c (by simp)), ih fun d hd => hall d (by simp [hd])]
      rfl

/-- The lower case of the sample platform is one for hosts. -/
theorem lowersHosts_lowerText : LowersHosts lowerText where
  lowercases := lowercases_lowerText
  blind := by
    have hfold : ∀ s, lowerText (asciiLower s) = lowerText s := by
      intro s
      simp only [lowerText, asciiLower, List.flatMap_map, lowerChar_toLower]
    intro s t h
    rw [← hfold s, h, hfold]
  port := by
    intro s p hp
    have happend : lowerText (s ++ p) = lowerText s ++ lowerText p := List.flatMap_append
    rw [happend, lowerText_port hp]
  slash := by
    intro s h
    obtain ⟨c, hc, hslash⟩ := List.mem_flatMap.mp h
    unfold lowerChar at hslash
    split at hslash
    · exact absurd hslash (by decide)
    split at hslash
    · exact absurd hslash (by decide)
    rw [List.mem_singleton] at hslash
    rw [eq_of_toLower (by decide) hslash.symm] at hc
    exact hc

/-- A request for a file, but for its host. -/
def fileRequest : HostRequest where
  line := asBytes "GET /f.txt HTTP/1.1".toList
  before := [asBytes "Accept: */*".toList]
  label := asBytes "hOST:".toList
  after := [13, 10]
  lineNoEol := ⟨by decide +kernel⟩
  lineBlank := ⟨32, by decide +kernel, by decide⟩
  beforeNoEol := by
    intro l hl
    rw [List.mem_singleton.mp hl]
    exact ⟨by decide +kernel⟩
  beforeOther := by decide +kernel
  labelHost := by decide +kernel

/-- The request as it is read with a host. -/
def fileRequestHttp (host : String) : HttpConn :=
  .received (fileRequest.bytes (asBytes (' ' :: host.toList)))
    (fileRequest.bytes (asBytes (' ' :: host.toList))).length .gotRequest

theorem fileRequestHttp_bytes (host : String) :
    (fileRequestHttp host).requestBytes = fileRequest.bytes (asBytes (' ' :: host.toList)) :=
  List.take_length

theorem vhost_selects_by_name_sample :
    SelectsByName loweringPlatform vhostConfig (World.still tenByteTree)
      (fileRequestHttp "Example.org") (fileRequestHttp "example.ORG") := by
  have hhost : (readRequestLine loweringPlatform (fileRequestHttp "Example.org")).host
      = hostText (asBytes " Example.org".toList) :=
    fileRequest.host_eq lowercases_lowerText ⟨by decide +kernel⟩ (fileRequestHttp_bytes _)
  have hhost' : (readRequestLine loweringPlatform (fileRequestHttp "example.ORG")).host
      = hostText (asBytes " example.ORG".toList) :=
    fileRequest.host_eq lowercases_lowerText ⟨by decide +kernel⟩ (fileRequestHttp_bytes _)
  refine (vhost_selects_by_name_iff loweringPlatform lowersHosts_lowerText vhostConfig rfl
    (World.still tenByteTree) (fileRequestHttp "Example.org") (fileRequestHttp "example.ORG")
    (fileRequest.sameLine (fileRequestHttp_bytes _) (fileRequestHttp_bytes _)) ?_).1.mpr ?_
  · rw [hhost, hhost']
    exact lowersHosts_lowerText.sameName (by decide +kernel)
  · rw [hhost, hhost']
    exact ⟨fun _ => by decide +kernel, fun hbad => absurd hbad (by decide +kernel)⟩

/-- **A port selects another file**, and a host that climbs is not refused. -/
theorem vhost_port_selects :
    (SameName lowerText "a".toList "a:80".toList ∧
      (readRequestLine loweringPlatform (fileRequestHttp "a")).host = "a".toList ∧
      (readRequestLine loweringPlatform (fileRequestHttp "a:80")).host = "a:80".toList ∧
      ¬ SelectsByName loweringPlatform vhostConfig (World.still tenByteTree)
        (fileRequestHttp "a") (fileRequestHttp "a:80")) ∧
    (badHost (readRequestLine loweringPlatform (fileRequestHttp "..")).host = true ∧
      ¬ RefusedWith loweringPlatform vhostConfig (World.still tenByteTree)
        (fileRequestHttp "..") 400) := by
  refine ⟨⟨⟨"a".toList, [], "a".toList, ":80".toList, rfl, rfl, rfl, .inl rfl,
    .inr ⟨"80".toList, rfl, List.all_eq_true.mp (by decide)⟩⟩, by decide +kernel, by decide +kernel, ?_⟩,
    by decide +kernel, ?_⟩
  · intro h
    exact absurd h.same (by decide +kernel)
  · rw [refusedWith_400_iff _ _ (by decide +kernel)]
    decide +kernel

end Thttpd
