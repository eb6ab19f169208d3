/-
The answers to HEAD.

An answer to HEAD is a head and nothing after it.  One branch of `serve_static` looks at
the method; every other reply, the listing of a directory and the page of a refusal
alike, comes with its body whatever was asked.  So a HEAD request is answered as it
should be where it leads to a file that is served, or to a program that prints no body
of its own accord (`head_bodyless_iff`).

A response is bytes, so that it has no body means that its first empty line is its
last.  A header value can hold such a line if it came from outside, as a charset of
the configuration can, so each head is asked about its type.  The ways to an answer
are then gone through, and all but two put a page behind the head.
-/
import Thttpd.Proofs.Missing
import Thttpd.Proofs.Splitting
import Thttpd.Http.Dirlist

namespace Thttpd

open Text Fs

/-! ### Responses without a body

Two conditions that exclude each other: the first empty line ends the response, or
something stands behind it.
-/

/-- The first empty line of a response is its end. -/
def Bodyless (response : Bytes) : Prop :=
  (findBytes blankLine response).map (· + blankLine.length) = some response.length

instance (response : Bytes) : Decidable (Bodyless response) := inferInstanceAs (Decidable (_ = _))

/-- A response with a head and something after it. -/
def HasBody (response : Bytes) : Prop :=
  ∃ (head : Head) (body : Bytes), body ≠ [] ∧ response = head.render ++ body

theorem HasBody.not_bodyless {response : Bytes} (h : HasBody response) : ¬ Bodyless response := by
  obtain ⟨head, body, hne, rfl⟩ := h
  intro hbare
  obtain ⟨pos, hpos, hlen⟩ := Option.map_eq_some_iff.mp hbare
  have hsuffix : blankLine <:+ head.render := by
    rw [head.render_eq_block]
    exact blankLine_suffix head.lines_ne_nil
  obtain ⟨before, hbefore⟩ := hsuffix
  have hfirst : pos ≤ before.length := by
    apply findBytes_le hpos
    rw [← hbefore, List.append_assoc, List.drop_left]
    exact List.prefix_append _ _
  have hpositive := List.length_pos_iff.mpr hne
  rw [← hbefore, List.length_append, List.length_append] at hlen
  omega

/-- Text that makes no empty line when its line ends. -/
def oneLine (t : Str) : Bool := (findBytes blankLine (asBytes (t ++ crlf))).isNone

/--
**A head with one header that may hold anything** ends at its first empty line where
that header makes none.

The header is going to be the type of a response, whose charset is taken from the
configuration as it is.  The other lines are text of one line, so an empty line can
only be made within this one.
-/
theorem Head.bodyless_iff {head : Head} {before after : List (Str × Str)} {name value : Str}
    (hheaders : head.headers = before ++ (name, value) :: after) (hne : after ≠ [])
    (hprotocol : NoBreak head.protocol) (hstatus : NoBreak head.statusText) (hname : NoBreak name)
    (hbefore : ∀ p ∈ before, NoBreak p.1 ∧ NoBreak p.2)
    (hafter : ∀ p ∈ after, NoBreak p.1 ∧ NoBreak p.2) :
    Bodyless head.render ↔ oneLine value = true := by
  have hlines : head.lines = (asBytes head.statusLine :: before.map (asBytes ∘ Head.headerLine)) ++
      (asBytes (name ++ ": ".toList) ++ asBytes value) ::
        after.map (asBytes ∘ Head.headerLine) := by
    rw [Head.lines, hheaders, ← asBytes_append]
    simp [Head.headerLine]
  have hpre : IsLine (asBytes (name ++ ": ".toList)) :=
    (hname.append (by decide)).isLine (by simp)
  have hfirst : ∀ l ∈ asBytes head.statusLine :: before.map (asBytes ∘ Head.headerLine),
      IsLine l := by
    intro l hl
    rcases List.mem_cons.mp hl with rfl | hl
    · exact (Head.statusLine_noBreak hprotocol hstatus).isLine head.statusLine_ne_nil
    · obtain ⟨p, hp, rfl⟩ := List.mem_map.mp hl
      exact Head.headerLine_isLine (hbefore p hp)
  have hlast : ∀ l ∈ after.map (asBytes ∘ Head.headerLine), IsLine l := by
    intro l hl
    obtain ⟨p, hp, rfl⟩ := List.mem_map.mp hl
    exact Head.headerLine_isLine (hafter p hp)
  have hfour := head.four_le_render
  have hcrlf : asBytes crlf = [13, 10] := by decide
  unfold Bodyless oneLine
  rw [head.render_eq_block, hlines] at hfour ⊢
  rw [asBytes_append value, hcrlf, Option.isNone_iff_eq_none,
    ← findBytes_block_line hfirst hpre (mt List.map_eq_nil_iff.mp hne) hlast,
    Option.map_eq_some_iff]
  have hblank : blankLine.length = 4 := rfl
  constructor
  · rintro ⟨pos, hpos, hlen⟩
    rw [hpos, Option.some.injEq]
    omega
  · intro hpos
    exact ⟨_, hpos, by omega⟩

/--
**A head is all of a response** where its type, which has the configured charset in
it, makes no empty line.
-/
theorem fullHead_bodyless {pf : Platform} {now : Int} {http : HttpConn} {status : Nat}
    {statusText contentType : Str} {length mtime rangeLen : Int} {extra : List (Str × Str)}
    (hdate : ∀ t, NoBreak (pf.formatHttpDate t)) (hversion : NoBreak http.httpVersion)
    (htext : NoBreak statusText) (htype : NoBreak contentType)
    (hextra : ∀ p ∈ extra, NoBreak p.1 ∧ NoBreak p.2) :
    Bodyless
        (fullHead pf now http status statusText contentType length mtime extra rangeLen).render ↔
      oneLine (fixedType http.charset contentType) = true := by
  -- the lines after the third are those of the same head with the default charset
  obtain ⟨rest, hheaders, hrest⟩ : ∃ rest,
      (fullHead pf now http status statusText contentType length mtime extra rangeLen).headers =
        [("Server".toList, serverSoftware)] ++
          ("Content-Type".toList, fixedType http.charset contentType) ::
            ("Date".toList, pf.formatHttpDate now) :: rest ∧
      ∀ p ∈ rest, NoBreak p.1 ∧ NoBreak p.2 := by
    have hnil : NoBreak ({ http with charset := [] } : HttpConn).charset := ⟨by simp, by simp⟩
    have hplain : ∀ p ∈ (fullHead pf now { http with charset := [] } status statusText contentType
        length mtime extra rangeLen).headers, NoBreak p.1 ∧ NoBreak p.2 :=
      fullHead_headers_noBreak hdate hnil htype hextra
    exact ⟨(fullHead pf now { http with charset := [] } status statusText contentType length mtime
      extra rangeLen).headers.drop 3, rfl, fun p hp => hplain p (List.mem_of_mem_drop hp)⟩
  have hserver : NoBreak "Server".toList ∧ NoBreak serverSoftware := by decide
  have hdates : NoBreak "Date".toList := by decide
  refine Head.bodyless_iff hheaders (List.cons_ne_nil _ _) ?_ ?_ (by decide) ?_ ?_
  · show NoBreak (if http.httpVersion = [] then "HTTP/1.0".toList else http.httpVersion)
    split
    · decide
    · exact hversion
  · obtain ⟨part, -, -, ht⟩ := fullHead_first pf now http status statusText contentType length
      mtime extra rangeLen
    rw [ht]
    split
    · decide
    · exact htext
  · intro p hp
    rw [List.mem_singleton.mp hp]
    exact hserver
  · intro p hp
    rcases List.mem_cons.mp hp with rfl | hp
    · exact ⟨hdates, hdate now⟩
    · exact hrest p hp

/-! ### Replies with a body

A page is never empty and neither is a listing.
-/

/-- The listings of a platform are pages of `generate_listing`. -/
def ListingsFormatted (pf : Platform) : Prop :=
  ∀ fs dir url body, pf.generateListing fs dir url = some body →
    ∃ now entries, body = generateListing pf now url entries

theorem generateListing_ne_nil (pf : Platform) (now : Nat) (url : Str) (entries : List DirEntry) :
    generateListing pf now url entries ≠ [] := by
  obtain ⟨rest, hrest⟩ : ∃ rest, listingPage pf now url entries = '<' :: rest := ⟨_, rfl⟩
  unfold generateListing
  rw [hrest, asBytes_cons]
  simp [String.utf8EncodeChar_ne_nil]

section

variable {pf : Platform} {cfg : ServerConfig} {w : World} {v v' : View}

/-- An error page has a body. -/
theorem errorResponse_hasBody (pf : Platform) (w : World) {http : HttpConn} (e : ErrorReply)
    (hm : http.mimeFlag = true) : HasBody (errorResponse pf w http e) := by
  obtain ⟨rest, hpage⟩ := errorPage_start e.status e.title e.form e.arg (some http.userAgent)
  refine ⟨errorHead pf w http e,
    errorPage e.status e.title e.form e.arg (some http.userAgent), ?_, ?_⟩
  · rw [hpage]
    simp
  · unfold errorResponse buildFullResponse
    simp only [hm, if_true]
    rfl

/-- A response that has a body is sent with it, or a refusal with one in its place. -/
theorem transitionToSending_hasBody {u : View} (hm : u.slot.http.mimeFlag = true)
    (h : HasBody u.slot.http.response) (ht : transitionToSending pf w u = .ok v') :
    HasBody v'.slot.http.response := by
  obtain ⟨⟨d, throttles⟩, -, ht⟩ := bind_eq_ok.mp ht
  cases ht
  obtain ⟨len, hlen⟩ := fillHeaderLen_eq u.slot
  have hkept : (fillHeaderLen u.slot).response = u.slot.http.response := by rw [hlen]
  have hmime : (fillHeaderLen u.slot).mimeFlag = true := by
    rw [hlen]
    exact hm
  cases d with
  | unlimited =>
      rw [← hkept] at h
      exact h
  | allow tnums maxLimit minLimit =>
      rw [← hkept] at h
      exact h
  | reject =>
      show HasBody (errorResponse pf w { fillHeaderLen u.slot with bytesSent := 0 } _)
      exact errorResponse_hasBody pf w _ hmime

/-- So has what is sent of one. -/
theorem sendError_hasBody {e : ErrorReply} (hm : v.slot.http.mimeFlag = true)
    (h : sendError pf w v e = .ok v') : HasBody v'.slot.http.response :=
  transitionToSending_hasBody (u := v.respond (errorResponse pf w v.slot.http e) .none) hm
    (errorResponse_hasBody pf w e hm) h

/-- A response that was admitted before is sent as it is. -/
theorem transitionToSending_response {u : View}
    (hadmitted : u.slot.isCgi = true ∨ u.slot.throttle.checked = true)
    (h : transitionToSending pf w u = .ok v') :
    v'.slot.http.response = u.slot.http.response := by
  obtain ⟨⟨d, throttles⟩, hentry, h⟩ := bind_eq_ok.mp h
  cases h
  obtain ⟨len, hlen⟩ := fillHeaderLen_eq u.slot
  rcases entryDecision_cases hentry with ⟨hcgi, hchecked, -⟩ | ⟨rfl, -, -⟩
  · rcases hadmitted with hyes | hyes
    · rw [hcgi] at hyes
      cases hyes
    · rw [hchecked] at hyes
      cases hyes
  · show (fillHeaderLen u.slot).response = _
    rw [hlen]

/-! ### Files and directories

`serve_static` looks at the method in one branch only, behind the checks and the
table and in front of the conditional requests.
-/

/-- The listing of a directory is sent to whoever asks, or an error. -/
theorem serveListing_hasBody {file opened : Path} {node : Node} (hlistings : ListingsFormatted pf)
    (hm : v.slot.http.mimeFlag = true) (h : serveListing pf w v file opened node = .ok v') :
    HasBody v'.slot.http.response := by
  unfold serveListing at h
  split at h
  · rename_i body hbody
    obtain ⟨now, entries, rfl⟩ := hlistings _ _ _ _ hbody
    obtain ⟨rangeLen, -, h⟩ := bind_eq_ok.mp h
    refine transitionToSending_hasBody (u := listingReply pf w v file opened node _ rangeLen) hm ?_ h
    refine ⟨fullHead pf w.unixNow v.slot.http 200 okText textHtml (-1) node.attr.mtime [] rangeLen, _,
      generateListing_ne_nil pf now v.slot.http.origFilename entries, ?_⟩
    show withBody v.slot.http (buildFullResponse pf w.unixNow v.slot.http 200 okText textHtml
      (-1) node.attr.mtime [] rangeLen) _ = _
    simp only [withBody, buildFullResponse, hm, if_true]
  · exact sendError_hasBody hm h

/--
Whether the answer about a path has no body: it is a file that is served, and its
type makes no empty line.
-/
def staticBodyless (pf : Platform) (cfg : ServerConfig) (w : World)
    (throttles : Option ThrottleTable) (http : HttpConn) (file : Path) : Bool :=
  !rejected pf throttles http.origFilename &&
    match staticCheck pf cfg w http file with
    | .error _ => false
    | .ok (opened, node) =>
        !node.isDir && oneLine (fixedType http.charset (figureMime opened).mimeType)

/-- The one branch that looks at the method. -/
theorem replyFile_bodyless {file opened : Path} {node : Node}
    (hdate : ∀ t, NoBreak (pf.formatHttpDate t)) (hm : v.slot.http.mimeFlag = true)
    (hhead : v.slot.http.method = .head) (hversion : NoBreak v.slot.http.httpVersion)
    (hchecked : v.slot.throttle.checked = true)
    (h : replyFile pf w v file opened node = .ok v') :
    Bodyless v'.slot.http.response ↔
      oneLine (fixedType v.slot.http.charset (figureMime opened).mimeType) = true := by
  unfold replyFile at h
  rw [if_pos hhead] at h
  have hresponse := transitionToSending_response (u := headReply pf w v opened node)
    (.inr hchecked) h
  have hbytes : (headReply pf w v opened node).slot.http.response =
      (fileFullHead pf w v.slot.http 200 okText opened node.len node).render := by
    rw [← fileHead_eq pf w 200 okText opened node.len node hm]
    exact if_pos hm
  obtain ⟨htype, hextra⟩ := figureMime_noBreak opened
  rw [hresponse, hbytes]
  exact fullHead_bodyless hdate hversion (by decide) htype hextra

theorem serveFile_bodyless {file opened : Path} {node : Node}
    (hdate : ∀ t, NoBreak (pf.formatHttpDate t)) (hm : v.slot.http.mimeFlag = true)
    (hhead : v.slot.http.method = .head) (hversion : NoBreak v.slot.http.httpVersion)
    (h : serveFile pf w v file opened node = .ok v') :
    Bodyless v'.slot.http.response ↔
      (!rejected pf v.shared.throttles v.slot.http.origFilename &&
        oneLine (fixedType v.slot.http.charset (figureMime opened).mimeType)) = true := by
  obtain ⟨⟨d, throttles⟩, hask, h⟩ := bind_eq_ok.mp h
  have hkeeps : ∀ {β : Type} (f : HttpConn → β),
      (∀ http last, f { http with lastByteIndex := last } = f http) →
      f (fileView v node d throttles).slot.http = f v.slot.http :=
    fun f hf => fillLastByte_keeps f hf v.slot.http node.len
  have hm' := (hkeeps HttpConn.mimeFlag fun _ _ => rfl).trans hm
  have hcharset := hkeeps HttpConn.charset fun _ _ => rfl
  have hreply : replyFile pf w (fileView v node d throttles) file opened node = .ok v' →
      (Bodyless v'.slot.http.response ↔
        oneLine (fixedType v.slot.http.charset (figureMime opened).mimeType) = true) := by
    intro h
    rw [← hcharset]
    refine replyFile_bodyless hdate hm' ((hkeeps HttpConn.method fun _ _ => rfl).trans hhead) ?_
      (admittedThrottle_checked v.slot.throttle d) h
    rw [hkeeps HttpConn.httpVersion fun _ _ => rfl]
    exact hversion
  rw [rejected_of_askThrottle hask]
  cases d with
  | reject =>
      have hbody : HasBody v'.slot.http.response :=
        transitionToSending_hasBody (u := overLimitReply pf w (fileView v node .reject throttles))
          hm' (errorResponse_hasBody pf w _ hm') h
      simp [hbody.not_bodyless]
  | unlimited => simpa using hreply h
  | allow tnums maxLimit minLimit => simpa using hreply h

/-- **What `serve_static` answers to HEAD.** -/
theorem serveStatic_bodyless {file : Path} (hdate : ∀ t, NoBreak (pf.formatHttpDate t))
    (hlistings : ListingsFormatted pf) (hm : v.slot.http.mimeFlag = true)
    (hhead : v.slot.http.method = .head) (hversion : NoBreak v.slot.http.httpVersion)
    (h : serveStatic pf cfg w v file = .ok v') :
    Bodyless v'.slot.http.response ↔
      staticBodyless pf cfg w v.shared.throttles (v.withCharset cfg).slot.http file = true := by
  have hm' : (v.withCharset cfg).slot.http.mimeFlag = true := hm
  unfold serveStatic at h
  unfold staticBodyless
  cases hcheck : staticCheck pf cfg w (v.withCharset cfg).slot.http file with
  | error e =>
      rw [hcheck] at h
      have hbody := sendError_hasBody hm' h
      simp [hbody.not_bodyless]
  | ok checked =>
      obtain ⟨opened, node⟩ := checked
      rw [hcheck] at h
      simp only at h ⊢
      unfold serveChecked at h
      cases hdir : node.isDir with
      | true =>
          rw [if_pos hdir] at h
          have hbody := serveListing_hasBody hlistings hm' h
          simp [hbody.not_bodyless]
      | false =>
          rw [if_neg (by simp [hdir])] at h
          have hfile := serveFile_bodyless (v := v.withCharset cfg) hdate hm' hhead hversion h
          have hshared : (v.withCharset cfg).shared = v.shared := rfl
          rw [hshared] at hfile
          simpa using hfile

/-! ### Programs

What a program prints is not cut at its head, whatever was asked.  Its output is the
response, with a status line in front unless it begins with one itself.
-/

/-- The status line that is put in front is one line. -/
theorem cgiStatusText_noBreak (status : Nat) : NoBreak (cgiStatusText status) := by
  unfold cgiStatusText
  split <;> decide

/--
Behind a line, what is left of a response has no body where all of it has none, or
it is the empty line.
-/
theorem bodyless_line {l : Bytes} (hl : (13 : UInt8) ∉ l) (output : Bytes) :
    Bodyless (l ++ 13 :: 10 :: output) ↔
      if [13, 10] <+: output then output = [13, 10] else Bodyless output := by
  have hshift := findBytes_append hl [10, 13, 10] (13 :: 10 :: output)
  have hblank : blankLine.length = 4 := rfl
  unfold Bodyless
  rw [hblank]
  unfold blankLine
  rw [hshift]
  split
  · rename_i hstarts
    obtain ⟨rest, rfl⟩ := hstarts
    have hzero : findBytes [13, 10, 13, 10] (13 :: 10 :: ([13, 10] ++ rest)) = some 0 :=
      findBytes_of_isPrefix (List.prefix_append [13, 10, 13, 10] rest)
    rw [hzero]
    simp only [Option.map_some, Option.some.injEq, List.length_append, List.length_cons,
      List.length_nil, List.append_right_eq_self]
    rw [← List.length_eq_zero_iff]
    omega
  · rename_i hstarts
    have hnot : [13, 10, 13, 10].isPrefixOf (13 :: 10 :: output) = false := by
      rw [Bool.eq_false_iff]
      intro hp
      have hp := List.isPrefixOf_iff_prefix.mp hp
      rw [List.prefix_cons_inj, List.prefix_cons_inj] at hp
      exact hstarts hp
    have hpass : findBytes [13, 10, 13, 10] (13 :: 10 :: output) =
        (findBytes [13, 10, 13, 10] output).map (· + 2) := by
      rw [findBytes, hnot, findBytes_cons (by decide), if_neg (by simp), Option.map_map]
      rfl
    rw [hpass]
    cases findBytes [13, 10, 13, 10] output with
    | none => simp
    | some pos =>
        simp only [Option.map_some, Option.some.injEq, List.length_append, List.length_cons]
        omega

/--
Whether what a program prints ends with its head.  Unless it speaks for itself, the
status line is put in front.
-/
def outputBodyless (script : Path) (output : Bytes) : Bool :=
  if isNphScript script then decide (Bodyless output)
  else if [13, 10] <+: output then decide (output = [13, 10])
  else decide (Bodyless output)

theorem cgiResponse_bodyless (script : Path) (output : Bytes) :
    Bodyless (cgiResponse script output) ↔ outputBodyless script output = true := by
  unfold cgiResponse outputBodyless
  split
  · rw [decide_eq_true_iff]
  have hcrlf : asBytes crlf = [13, 10] := by decide
  have hline : (13 : UInt8) ∉ asBytes ("HTTP/1.0 ".toList ++ natStr (extractCgiStatus output).1 ++
      [' '] ++ (extractCgiStatus output).2) := by
    have htext : NoBreak (extractCgiStatus output).2 := by
      unfold extractCgiStatus
      split
      · decide
      · exact cgiStatusText_noBreak _
    have hfirst : NoBreak "HTTP/1.0 ".toList := by decide
    have hall := ((hfirst.append (natStr_noBreak (extractCgiStatus output).1)).append
      (t := [' ']) (by decide)).append htext
    exact fun hmem => hall.1 (byteChar_mem_of_asBytes (by decide) hmem)
  simp only
  rw [asBytes_append, hcrlf, List.append_assoc]
  refine (bodyless_line hline output).trans ?_
  split <;> rw [decide_eq_true_iff]

/-- Whether a program is there to answer and prints a head only. -/
def callBodyless (w : World) (call : CgiCall) : Bool :=
  match w.execCgi call with
  | some out => outputBodyless call.scriptPath (cgiBytes out)
  | none => false

/-- Whether the answer to a request for a program has no body. -/
def programBodyless (pf : Platform) (cfg : ServerConfig) (w : World) (shared : Shared)
    (slot : ConnSlot) : Bool :=
  (ranCall pf cfg w shared slot).any (callBodyless w)

theorem runCgi_bodyless {call : CgiCall} (hm : v.slot.http.mimeFlag = true)
    (h : runCgi pf w v call = .ok v') :
    Bodyless v'.slot.http.response ↔ callBodyless w call = true := by
  have hkeeps : ∀ charge, (releaseCgi (cgiStarted v call) charge).slot.isCgi = true ∧
      (releaseCgi (cgiStarted v call) charge).slot.http = v.slot.http :=
    fun charge => ⟨(releaseCgi_keeps (cgiStarted v call) charge).1,
      releaseCgi_http (cgiStarted v call) charge⟩
  unfold runCgi at h
  unfold callBodyless
  cases hexec : w.execCgi call with
  | some out =>
      rw [hexec] at h
      have hresponse := transitionToSending_response
        (u := (releaseCgi (cgiStarted v call) (some cgiBytecount)).respond
          (cgiResponse call.scriptPath (cgiBytes out)) .none) (.inl (hkeeps _).1) h
      rw [hresponse]
      exact cgiResponse_bodyless call.scriptPath (cgiBytes out)
  | none =>
      rw [hexec] at h
      have hbody := sendError_hasBody (v := releaseCgi (cgiStarted v call) none)
        (by rw [(hkeeps none).2]; exact hm) h
      simp [hbody.not_bodyless]

/-- A program that the table refuses is answered with a page. -/
theorem admitCgi_bodyless {script pathInfo : Str} (hm : v.slot.http.mimeFlag = true)
    (h : admitCgi pf cfg w v script pathInfo = .ok v') :
    Bodyless v'.slot.http.response ↔
      (!rejected pf v.shared.throttles script &&
        callBodyless w (cgiCall cfg w v.slot script pathInfo)) = true := by
  obtain ⟨⟨d, throttles⟩, hask, h⟩ := bind_eq_ok.mp h
  rw [rejected_of_askThrottle hask]
  cases d with
  | reject =>
      have hbody := sendError_hasBody (v := endCgi (v.admitted throttles v.slot.throttle)) hm h
      simp [hbody.not_bodyless]
  | unlimited =>
      have hrun : Bodyless v'.slot.http.response ↔
          callBodyless w (cgiCall cfg w v.slot script pathInfo) = true :=
        runCgi_bodyless (v := v.admitted throttles v.slot.throttle) hm h
      simpa using hrun
  | allow tnums maxLimit minLimit =>
      have hrun : Bodyless v'.slot.http.response ↔
          callBodyless w (cgiCall cfg w v.slot script pathInfo) = true :=
        runCgi_bodyless (v := v.admitted throttles { v.slot.throttle with tnums := tnums }) hm h
      simpa using hrun

theorem startCgi_bodyless (hlim : cgiLimitReached cfg v.shared = false)
    (hm : v.slot.http.mimeFlag = true) (h : startCgi pf cfg w v = .ok v') :
    Bodyless v'.slot.http.response ↔ programBodyless pf cfg w v.shared v.slot = true := by
  unfold startCgi at h
  unfold programBodyless ranCall ranScript
  simp only at h ⊢
  cases hrun : runnable cfg w (resolveScript cfg w v.slot.http).1 with
  | true =>
      rw [if_pos hrun] at h
      have hadmitted := admitCgi_bodyless (v := beginCgi v (resolveScript cfg w v.slot.http).2) hm h
      have hbegin : (beginCgi v (resolveScript cfg w v.slot.http).2).shared.throttles
          = v.shared.throttles := rfl
      rw [hadmitted, hbegin, hlim]
      cases rejected pf v.shared.throttles (resolveScript cfg w v.slot.http).1 <;> rfl
  | false =>
      rw [if_neg (by simp [hrun])] at h
      have hbody := sendError_hasBody
        (v := endCgi (beginCgi v (resolveScript cfg w v.slot.http).2)) hm h
      simp [hbody.not_bodyless]

/-- **What is answered to HEAD for a program**, once there is an answer. -/
theorem dispatchCgi_bodyless (hm : v.slot.http.mimeFlag = true)
    (hput : v'.slot.pendingCgiBody = false) (h : dispatchCgi pf cfg w v = .ok v') :
    Bodyless v'.slot.http.response ↔ programBodyless pf cfg w v.shared v.slot = true := by
  unfold dispatchCgi at h
  split at h
  · cases h
    cases hput
  cases hlim : cgiLimitReached cfg v.shared with
  | true =>
      rw [if_pos hlim] at h
      have hbody := sendError_hasBody (v := v.withCharset cfg) hm h
      unfold programBodyless ranCall ranScript
      simp [hlim, hbody.not_bodyless]
  | false =>
      rw [if_neg (by simp [hlim])] at h
      exact startCgi_bodyless (v := v.withCharset cfg) hlim hm h

end

/-! ### Requests

The answer is without a body on the ways that lead to one of the two.
-/

/-- Whether the answer to a HEAD request has no body. -/
def answerBodyless (pf : Platform) (cfg : ServerConfig) (w : World) (v : View) : Bool :=
  match route pf cfg w v.slot.http with
  | .refused _ _ => false
  | .static http file =>
      staticBodyless pf cfg w v.shared.throttles { http with charset := cfg.charset } file
  | .program http => programBodyless pf cfg w v.shared (v.setHttp http).slot

/--
**A HEAD request is answered without a body** just when it leads past every refusal
to a file that is served, or to a program that prints none.

A page is sent whole to whoever asked, and so is a listing, so nothing but a file,
or a program that prints no body, leaves the response at its head.
-/
theorem head_bodyless_iff {pf : Platform} {cfg : ServerConfig} {w : World} {v v' : View}
    (hdates : DatesFormatted pf) (hlistings : ListingsFormatted pf) (hv : Untouched v)
    (hm : (readRequestLine pf v.slot.http).mimeFlag = true)
    (hhead : (readRequestLine pf v.slot.http).method = .head)
    (h : processRequest pf cfg w v = .ok v') (hput : v'.slot.pendingCgiBody = false) :
    Bodyless v'.slot.http.response ↔ answerBodyless pf cfg w v = true := by
  have hdate : ∀ t, NoBreak (pf.formatHttpDate t) := fun t => formatHttpDate_noBreak (hdates t)
  have hmime := (hv.unanswered cfg w hm).mime
  have hmethod : (route pf cfg w v.slot.http).http.method = .head :=
    (route_http_keeps HttpConn.method (fun _ _ _ _ => rfl) (fun _ _ => rfl) (fun _ _ => rfl)
      (fun _ _ _ _ => rfl) pf cfg w _).trans hhead
  have hversion : NoBreak (route pf cfg w v.slot.http).http.httpVersion := by
    rw [(route_speaks pf cfg w hv).version]
    exact .of_unbroken (readRequestLine_version_unbroken hm).1
  rw [processRequest_eq] at h
  unfold answerBodyless
  cases hroute : route pf cfg w v.slot.http with
  | refused http e =>
      rw [hroute] at h hmime
      have hbody := sendError_hasBody hmime h
      simp [hbody.not_bodyless]
  | static http file =>
      rw [hroute] at h hmime hmethod hversion
      exact serveStatic_bodyless (v := v.setHttp http) hdate hlistings hmime hmethod hversion h
  | program http =>
      rw [hroute] at h hmime
      exact dispatchCgi_bodyless (v := v.setHttp http) hmime hput h

/-- A HEAD request for a path of the tree with one file. -/
def headRequest (path : String) : View := requestView ("HEAD " ++ path ++ " HTTP/1.0\r\n\r\n")

def headAnswer (path : String) : View :=
  resultOf (headRequest path)
    (processRequest .dated wwwConfig (World.still tenByteTree) (headRequest path))

theorem dated_lists : ListingsFormatted Platform.dated := by
  intro fs dir url body h
  cases h

/-- A file is answered with its head. -/
theorem head_bodyless_file :
    processRequest .dated wwwConfig (World.still tenByteTree) (headRequest "/f.txt")
        = .ok (headAnswer "/f.txt") ∧
      Bodyless (headAnswer "/f.txt").slot.http.response := by
  have hanswered : processRequest .dated wwwConfig (World.still tenByteTree)
      (headRequest "/f.txt") = .ok (headAnswer "/f.txt") := eq_ok_of_panicOf _ (by decide +kernel)
  refine ⟨hanswered, ?_⟩
  exact (head_bodyless_iff dated_formats dated_lists (requestView_untouched _) (by decide +kernel)
    (by decide +kernel) hanswered (by decide +kernel)).mpr (by decide +kernel)

/--
**A file that is missing is answered with a page**, which a HEAD request did not ask
for.
-/
theorem head_missing_page :
    processRequest .dated wwwConfig (World.still tenByteTree) (headRequest "/none")
        = .ok (headAnswer "/none") ∧
      (readRequestLine .dated (headRequest "/none").slot.http).method = .head ∧
      (readRequestLine .dated (headRequest "/none").slot.http).mimeFlag = true ∧
      wireStatus (headAnswer "/none").slot.http.response = some 404 ∧
      ¬ Bodyless (headAnswer "/none").slot.http.response := by
  refine ⟨eq_ok_of_panicOf _ (by decide +kernel), ?_⟩
  decide +kernel

end Thttpd
