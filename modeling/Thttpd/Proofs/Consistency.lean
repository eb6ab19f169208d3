/-
The head of a file response and its body agree.

`build_full_response` decides about a partial answer from the range fields and the
size of the file; `serve_static` cuts the body with tests of its own.  On a file
that is not empty, and a range that is not reversed, both come to the same end.

The tests are compared through what a head says of a body (`Agrees`): how long it
is, whether it is a part of the file, and which part.  For a whole file and for a
part of it this is proved separately, and what remains is that the two functions
always choose the same of the two.
-/
import Thttpd.Proofs.Route

namespace Thttpd

open Text Fs

/-! ### A file that went out

A response that holds a file came from `reply_file`, with the file mapped and its
body cut by `range_body`.  This is read backwards through `serve_static` from the
payload, so nothing has to be said of the other ways a request can end.
-/

/-- A path that went through the checks and is a file is sent as one. -/
theorem checkedPayload_file {pf : Platform} {w : World} {throttles : Option ThrottleTable}
    {http : HttpConn} {file opened : Path} {node : Node} {handed sent : Path}
    (h : checkedPayload pf w throttles http file opened node = .file handed sent) :
    handed = file ∧ sent = opened ∧ node.isDir = false ∧
      rejected pf throttles http.origFilename = false ∧ sendsData w http opened node = true := by
  unfold checkedPayload at h
  split at h
  · cases h
  rename_i hrej
  split at h
  · split at h <;> cases h
  rename_i hdir
  split at h
  · rename_i hsends
    cases h
    exact ⟨rfl, rfl, by simpa using hdir, by simpa using hrej, hsends⟩
  · cases h

theorem staticPayload_file {pf : Platform} {cfg : ServerConfig} {w : World}
    {throttles : Option ThrottleTable} {http : HttpConn} {file handed opened : Path}
    (h : staticPayload pf cfg w throttles http file = .file handed opened) :
    handed = file ∧ ∃ node, staticCheck pf cfg w http file = .ok (opened, node) ∧
      node.isDir = false ∧ rejected pf throttles http.origFilename = false ∧
      sendsData w http opened node = true := by
  unfold staticPayload at h
  cases hcheck : staticCheck pf cfg w http file with
  | error e => rw [hcheck] at h; cases h
  | ok checked =>
      obtain ⟨opened', node⟩ := checked
      rw [hcheck] at h
      obtain ⟨rfl, rfl, hdir, hrej, hsends⟩ := checkedPayload_file h
      exact ⟨rfl, node, rfl, hdir, hrej, hsends⟩

/-- The answer with a file: its response is a head and a part of the mapped data. -/
structure FileAnswer (pf : Platform) (w : World) (http : HttpConn) (opened : Path) (node : Node)
    (v' : View) : Prop where
  mapped : ∃ data body, w.mmap opened = some data ∧ rangeBody pf http data = .ok body ∧
    v'.slot.http.response
      = withBody http (fileHead pf w http 200 okText opened node.len node) body
  range : v'.slot.http.range = http.range
  mimeFlag : v'.slot.http.mimeFlag = http.mimeFlag

/-- The data of the file, and the part of it that was asked for. -/
theorem replyFile_data {pf : Platform} {w : World} {v v' : View} {file opened : Path}
    {node : Node} (hchecked : v.slot.throttle.checked = true)
    (hsends : sendsData w v.slot.http opened node = true)
    (h : replyFile pf w v file opened node = .ok v') :
    FileAnswer pf w v.slot.http opened node v' := by
  simp only [sendsData, Bool.and_eq_true, decide_eq_true_eq, Bool.not_eq_true'] at hsends
  obtain ⟨⟨hhead, hmod⟩, hmap⟩ := hsends
  obtain ⟨data, hdata⟩ := Option.isSome_iff_exists.mp hmap
  unfold replyFile at h
  rw [if_neg hhead, if_neg (by simp [hmod]), hdata] at h
  obtain ⟨body, hbody, h⟩ := bind_eq_ok.mp h
  obtain ⟨⟨d, throttles⟩, hd, h⟩ := bind_eq_ok.mp h
  have hno : entryDecision pf (dataReply pf w v file opened node data body)
      = .ok (.unlimited, v.shared.throttles) := by
    have hc : (dataReply pf w v file opened node data body).slot.throttle.checked = true :=
      hchecked
    unfold entryDecision
    rw [hc, Bool.not_true, Bool.and_false]
    rfl
  cases hno.symm.trans hd
  cases h
  let slot := (dataReply pf w v file opened node data body).slot
  obtain ⟨len, hfill⟩ := fillHeaderLen_eq slot
  have hresp : (fillHeaderLen slot).response = slot.http.response := by rw [hfill]
  have hrange : (fillHeaderLen slot).range = slot.http.range := by rw [hfill]; rfl
  have hmime : (fillHeaderLen slot).mimeFlag = slot.http.mimeFlag := by rw [hfill]
  exact ⟨⟨data, body, hdata, hbody, hresp⟩, hrange, hmime⟩

theorem serveStatic_file {pf : Platform} {cfg : ServerConfig} {w : World} {v v' : View}
    {file handed opened : Path} (hcgi : v.slot.isCgi = false)
    (hchecked : v.slot.throttle.checked = false) (h : serveStatic pf cfg w v file = .ok v')
    (hp : v'.slot.http.payload = .file handed opened) :
    handed = file ∧ ∃ node,
      staticCheck pf cfg w (v.withCharset cfg).slot.http file = .ok (opened, node) ∧
      node.isDir = false ∧
      FileAnswer pf w (fillLastByte (v.withCharset cfg).slot.http node.len) opened node v' := by
  have hsent := congrArg Prod.fst (serveStatic_sent hcgi hchecked h)
  obtain ⟨rfl, node, hcheck, hdir, hrej, hsends⟩ := staticPayload_file (hsent.symm.trans hp)
  refine ⟨rfl, node, hcheck, hdir, ?_⟩
  unfold serveStatic at h
  rw [hcheck] at h
  simp only at h
  unfold serveChecked at h
  rw [if_neg (by simp [hdir])] at h
  obtain ⟨⟨d, throttles⟩, hadmitted, h⟩ := bind_eq_ok.mp h
  have hreject := (rejected_of_askThrottle hadmitted).symm.trans hrej
  have hreply : replyFile pf w (fileView (v.withCharset cfg) node d throttles) handed opened node
      = .ok v' := by
    cases d with
    | reject => cases hreject
    | unlimited => exact h
    | allow tnums maxLimit minLimit => exact h
  rw [← sendsData_fillLastByte w _ node.len] at hsends
  exact replyFile_data (admittedThrottle_checked _ d) hsends hreply

/-! ### Looking up a header line

A head is a list of lines, and some of them are named twice in the source, once by
the builder and once by the caller.  So a lookup goes past the lines that stand
first, none of which is about the length.
-/

/-- The value of the first header line of that name. -/
def Head.value (h : Head) (name : String) : Option Str := h.headers.lookup name.toList

/-- A name that is none of the keys is not found. -/
theorem lookup_eq_none_of_keys {name : Str} {lines : List (Str × Str)}
    (h : name ∉ lines.map Prod.fst) : lines.lookup name = none := by
  rw [List.lookup_eq_none_iff]
  intro p hp
  rw [bne_iff_ne]
  intro hname
  exact h (by rw [hname]; exact List.mem_map_of_mem hp)

/-- The lines before the ones about the length. -/
def leadingHeaders (pf : Platform) (unixNow modTime : Int) (http : HttpConn) (mime : MimeInfo) :
    List (Str × Str) :=
  [("Server".toList, serverSoftware),
   ("Content-Type".toList, fixedType http.charset mime.mimeType),
   ("Date".toList, pf.formatHttpDate unixNow),
   ("Last-Modified".toList, pf.formatHttpDate modTime),
   ("Accept-Ranges".toList, "bytes".toList),
   ("Connection".toList, "close".toList)] ++ encodingHeaders mime

/-- Their names. -/
def leadingNames : List String :=
  ["Server", "Content-Type", "Date", "Last-Modified", "Accept-Ranges", "Connection",
   "Content-Encoding"]

/-- Nothing about the length is found among them. -/
theorem leadingHeaders_lookup (pf : Platform) (unixNow modTime : Int) (http : HttpConn)
    (mime : MimeInfo) :
    (leadingHeaders pf unixNow modTime http mime).lookup "Content-Length".toList = none ∧
      (leadingHeaders pf unixNow modTime http mime).lookup "Content-Range".toList = none := by
  have hkeys : ∀ name, name ∉ leadingNames.map String.toList →
      (leadingHeaders pf unixNow modTime http mime).lookup name = none := by
    intro name hname
    refine lookup_eq_none_of_keys fun hmem => hname ?_
    unfold leadingHeaders encodingHeaders at hmem
    cases henc : mime.encoding with
    | none =>
        rw [henc] at hmem
        exact List.mem_append_left [contentEncoding] hmem
    | some enc =>
        rw [henc] at hmem
        exact hmem
  exact ⟨hkeys _ (by decide), hkeys _ (by decide)⟩

/-- Only `Content-Encoding` is passed on as an extra header, and it has its own place. -/
theorem encodingHeaders_split (mime : MimeInfo) :
    ((encodingHeaders mime).filter fun h => eqIgnoreAsciiCase h.1 contentEncoding).map
        (fun h => (contentEncoding, h.2)) = encodingHeaders mime ∧
      (encodingHeaders mime).filter (fun h => !eqIgnoreAsciiCase h.1 contentEncoding) = [] := by
  unfold encodingHeaders
  cases mime.encoding with
  | none => exact ⟨rfl, rfl⟩
  | some enc =>
      have hself : eqIgnoreAsciiCase contentEncoding contentEncoding = true := by
        simp [eqIgnoreAsciiCase]
      simp [hself]

/-- The headers of a file response: the leading ones, then those about the length. -/
theorem fullHead_headers (pf : Platform) (unixNow : Int) (http : HttpConn) (mime : MimeInfo)
    (size mtime : Int) :
    ∃ modTime lead, lead = leadingHeaders pf unixNow modTime http mime ∧
      (fullHead pf unixNow http 200 okText mime.mimeType size mtime (encodingHeaders mime)
        http.rangeLen).headers
        = lead ++ (if partialContent http 200 size modTime then
            [("Content-Range".toList, "bytes ".toList ++ intStr http.firstByteIndex ++ ['-']
                ++ intStr http.lastByteIndex ++ ['/'] ++ intStr size),
             ("Content-Length".toList, intStr (http.lastByteIndex - http.firstByteIndex + 1))]
          else if 0 ≤ size then [("Content-Length".toList, intStr size)] else []) ∧
      (fullHead pf unixNow http 200 okText mime.mimeType size mtime (encodingHeaders mime)
        http.rangeLen).status
        = if partialContent http 200 size modTime then 206 else 200 := by
  obtain ⟨henc, hrest⟩ := encodingHeaders_split mime
  refine ⟨modTime unixNow mtime, _, rfl, ?_, ?_⟩
  · unfold fullHead leadingHeaders
    simp only [henc, hrest, List.append_nil]
    cases partialContent http 200 size (modTime unixNow mtime) <;> rfl
  · rfl

/-! ### Head and body

The cases are those of the range: none was asked for, it is all of the file, it is a
part of it, or it begins behind the end.
-/

/-- The `Content-Range` value for the positions `first` to `last` of `size` bytes. -/
def contentRange (first last size : Nat) : Str :=
  "bytes ".toList ++ natStr first ++ ['-'] ++ natStr last ++ ['/'] ++ natStr size

/--
A head that says of a body what is true of it: its length, whether it is only a part
of the data, and which part.
-/
structure Agrees (head : Head) (data body : Bytes) : Prop where
  length : head.value "Content-Length" = some (natStr body.length)
  partialIff : head.status = 206 ↔ body.length < data.length
  positions : head.status = 206 → ∃ first last, first ≤ last ∧ last < data.length ∧
    body = (data.take (last + 1)).drop first ∧
    head.value "Content-Range" = some (contentRange first last data.length)
  whole : head.status ≠ 206 → head.status = 200 ∧ body = data

/-- A head without a range says it of the whole file. -/
theorem agrees_whole {pf : Platform} {unixNow : Int} {http : HttpConn} {mime : MimeInfo}
    {mtime : Int} {data : Bytes} (hpart : ∀ modTime,
      partialContent http 200 data.length modTime = false) :
    Agrees (fullHead pf unixNow http 200 okText mime.mimeType data.length mtime
      (encodingHeaders mime) http.rangeLen) data data := by
  obtain ⟨modTime, lead, hlead, hheaders, hstatus⟩ :=
    fullHead_headers pf unixNow http mime data.length mtime
  rw [hpart modTime] at hheaders hstatus
  have h200 : (fullHead pf unixNow http 200 okText mime.mimeType data.length mtime
    (encodingHeaders mime) http.rangeLen).status = 200 := hstatus
  refine ⟨?_, ?_, ?_, fun _ => ⟨h200, rfl⟩⟩
  · unfold Head.value
    rw [hheaders, hlead, List.lookup_append, (leadingHeaders_lookup _ _ _ _ _).1]
    have hnn : (0 : Int) ≤ (data.length : Int) := Int.natCast_nonneg _
    simp only [Bool.false_eq_true, if_false, if_pos hnn, List.lookup_cons, beq_self_eq_true]
    rfl
  · rw [h200]
    constructor
    · intro h; cases h
    · intro h; exact absurd h (Nat.lt_irrefl _)
  · intro h
    rw [h200] at h
    cases h

/-- A head with one says it of that part. -/
theorem agrees_part {pf : Platform} {unixNow : Int} {http : HttpConn} {mime : MimeInfo}
    {mtime : Int} {data : Bytes} {first last : Nat} (hf : http.firstByteIndex = first)
    (hl : http.lastByteIndex = last) (hfl : first ≤ last) (hls : last < data.length)
    (hpart : ∀ modTime, partialContent http 200 data.length modTime = true)
    (hproper : ¬(first = 0 ∧ last + 1 = data.length)) :
    Agrees (fullHead pf unixNow http 200 okText mime.mimeType data.length mtime
      (encodingHeaders mime) http.rangeLen) data ((data.take (last + 1)).drop first) := by
  obtain ⟨modTime, lead, hlead, hheaders, hstatus⟩ :=
    fullHead_headers pf unixNow http mime data.length mtime
  rw [hpart modTime] at hheaders hstatus
  have h206 : (fullHead pf unixNow http 200 okText mime.mimeType data.length mtime
    (encodingHeaders mime) http.rangeLen).status = 206 := hstatus
  have hlen : ((data.take (last + 1)).drop first).length = last - first + 1 := by
    rw [List.length_drop, List.length_take]
    omega
  simp only [if_true, hf, hl] at hheaders
  refine ⟨?_, ?_, fun _ => ⟨first, last, hfl, hls, rfl, ?_⟩, fun h => absurd h206 h⟩
  · unfold Head.value
    rw [hheaders, hlead, List.lookup_append, (leadingHeaders_lookup _ _ _ _ _).1, hlen]
    have hdiff : ((last : Int) - first + 1) = ((last - first + 1 : Nat) : Int) := by omega
    rw [hdiff]
    rfl
  · rw [h206, hlen]
    constructor
    · intro _; omega
    · intro _; rfl
  · unfold Head.value
    rw [hheaders, hlead, List.lookup_append, (leadingHeaders_lookup _ _ _ _ _).2]
    rfl

/--
**Head and body agree** on a file that is not empty, unless the range is reversed.

The range is closed and already brought back into the file, so its length is one
more than the difference of its ends, and the body that was cut out has just that
many bytes.
-/
theorem fullHead_agrees {pf : Platform} {unixNow : Int} {http : HttpConn} {mime : MimeInfo}
    {mtime : Int} {data body : Bytes} (hif : http.rangeIf = none)
    (hmax : (data.length : Int) ≤ i64Max) (h0 : 0 ≤ http.firstByteIndex)
    (hf : http.firstByteIndex ≤ i64Max)
    (hlast : http.gotRange = true → 0 ≤ http.lastByteIndex ∧ http.lastByteIndex < data.length)
    (hrange : http.gotRange = false ∨ http.firstByteIndex ≤ http.lastByteIndex ∨
      (data.length : Int) ≤ http.firstByteIndex)
    (hbody : rangeBody pf http data = .ok body) :
    Agrees (fullHead pf unixNow http 200 okText mime.mimeType data.length mtime
      (encodingHeaders mime) http.rangeLen) data body := by
  have hpart : ∀ modTime, partialContent http 200 data.length modTime
      = (http.gotRange && decide (http.firstByteIndex ≤ http.lastByteIndex)
        && (http.lastByteIndex != data.length - 1 || http.firstByteIndex != 0)) := by
    intro modTime
    simp [partialContent, hif]
  cases hg : http.gotRange with
  | false =>
      rw [rangeBody_whole pf hg] at hbody
      cases hbody
      exact agrees_whole fun modTime => by rw [hpart, hg]; rfl
  | true =>
      obtain ⟨hl0, hl⟩ := hlast hg
      have hr : http.range = (true, http.firstByteIndex, http.lastByteIndex) := by
        simp [HttpConn.range, hg]
      rw [rangeBody_inside pf hr h0 hf hl0 hl hmax] at hbody
      by_cases hin : http.firstByteIndex < data.length
      · have hfl : http.firstByteIndex ≤ http.lastByteIndex := by
          rcases hrange with h | h | h
          · rw [hg] at h; cases h
          · exact h
          · omega
        rw [if_pos hin] at hbody
        unfold slice at hbody
        rw [if_neg (by omega), if_neg (by omega)] at hbody
        cases hbody
        by_cases hall : http.firstByteIndex = 0 ∧ http.lastByteIndex = data.length - 1
        · -- The range is the whole file.
          have hcut : (data.take (http.lastByteIndex.toNat + 1)).drop http.firstByteIndex.toNat
              = data := by
            rw [hall.1, List.take_of_length_le (by omega)]
            rfl
          rw [hcut]
          exact agrees_whole fun modTime => by simp [hpart, hall.1, hall.2]
        · refine agrees_part (by omega) (by omega) (by omega) (by omega) ?_
            (by omega)
          intro modTime
          rw [hpart, hg]
          simp only [Bool.true_and, Bool.and_eq_true, decide_eq_true_eq, Bool.or_eq_true,
            bne_iff_ne]
          omega
      · rw [if_neg hin] at hbody
        cases hbody
        refine agrees_whole ?_
        intro modTime
        rw [hpart, hg]
        simp only [Bool.true_and, Bool.and_eq_false_iff, decide_eq_false_iff_not]
        omega

/-! ### Requests

The range fields of a request are those its header gave, brought back into the file
before anything is cut.  What the parser accepts is never negative, and this is all
that the cutting needs of it.
-/

/-- No header is read into `range_if`. -/
theorem readRequest_rangeIf (pf : Platform) (http : HttpConn) :
    (readRequest pf http).rangeIf = http.rangeIf := by
  have hcond := readConditions_keeps HttpConn.rangeIf (fun _ _ _ _ => rfl) (fun _ _ => rfl) pf
  exact hcond _ (readRequestLine pf http)

/-- Filling in the end touches nothing else. -/
theorem fillLastByte_rangeIf (http : HttpConn) (size : Int) :
    (fillLastByte http size).rangeIf = http.rangeIf := by
  unfold fillLastByte
  split <;> rfl

/-- The bounds of the range a request has when its file is cut. -/
theorem request_range_bounds {pf : Platform} {buf : Bytes} {checkedIdx : Nat} {size : Nat}
    {http : HttpConn}
    (hr : http.range = (withRange HttpConn.new (requestRange pf buf checkedIdx)).range)
    (hpos : 0 < size) :
    0 ≤ (fillLastByte http size).firstByteIndex ∧
      (fillLastByte http size).firstByteIndex ≤ i64Max ∧
      ((fillLastByte http size).gotRange = true →
        0 ≤ (fillLastByte http size).lastByteIndex ∧
          (fillLastByte http size).lastByteIndex < size) := by
  cases hasked : requestRange pf buf checkedIdx with
  | none =>
      rw [hasked] at hr
      simp only [HttpConn.range, withRange, Prod.mk.injEq] at hr
      obtain ⟨hg, hf, -⟩ := hr
      have hg' : http.gotRange = false := hg
      have hf' : http.firstByteIndex = 0 := hf
      rw [fillLastByte_of_no_range hg', hf', hg']
      exact ⟨Int.le_refl 0, by decide, fun h => by cases h⟩
  | some asked =>
      obtain ⟨first, last⟩ := asked
      obtain ⟨range, -, hrange⟩ := Option.bind_eq_some_iff.mp hasked
      have hmax := (askedRange_bounds hrange).1
      rw [hasked, withRange_range_some] at hr
      simp only [HttpConn.range, Prod.mk.injEq] at hr
      obtain ⟨hg, hf, hl⟩ := hr
      have hl1 : -1 ≤ http.lastByteIndex := by
        rw [hl]
        cases last with
        | none => exact Int.le_refl _
        | some l => simp only [Option.map_some, Option.getD_some]; omega
      have hfill := fillLastByte_range hg size
      simp only [HttpConn.range, Prod.mk.injEq] at hfill
      obtain ⟨-, hff, hfl⟩ := hfill
      rw [hff, hfl, hf]
      unfold i64Max at hmax ⊢
      exact ⟨by omega, by omega, fun _ => lastIn_bounds hpos hl1⟩

/-- A request answered with a file, from `process_request` on. -/
theorem processRequest_file {pf : Platform} {cfg : ServerConfig} {w : World} {v v' : View}
    {handed opened : Path} (hv : Untouched v) (h : processRequest pf cfg w v = .ok v')
    (hfile : v'.slot.http.payload = .file handed opened) :
    ∃ normalized node, w.fs.stat opened = .ok node ∧
      FileAnswer pf w (fillLastByte (staticHttp pf cfg w v.slot.http normalized) node.len)
        opened node v' := by
  rw [processRequest_eq] at h
  cases hroute : route pf cfg w v.slot.http with
  | refused http reply =>
      rw [hroute] at h
      have hs := congrArg Prod.fst (sendError_sent h)
      cases hs.symm.trans hfile
  | program http =>
      rw [hroute] at h
      have hnone : http.payload = .none := (route_program_payload hroute).trans hv.payload
      cases hp : bodyPending http with
      | true =>
          have hv' := dispatchCgi_pending (v := v.setHttp http) hp h
          subst hv'
          cases hnone.symm.trans hfile
      | false =>
          have hs := (dispatchCgi_ran (v := v.setHttp http) hp h).sent.payload
          cases hs.symm.trans hfile
  | static http file =>
      rw [hroute] at h
      obtain ⟨-, node, hcheck, -, hanswer⟩ :=
        serveStatic_file (v := v.setHttp http) hv.isCgi hv.checked h hfile
      obtain ⟨normalized, hres, -⟩ := route_static hroute
      refine ⟨normalized, node, (staticCheck_ok hcheck).2.1, ?_⟩
      have hhttp : ((v.setHttp http).withCharset cfg).slot.http
          = staticHttp pf cfg w v.slot.http normalized := by
        rw [hres.resolved]; rfl
      rw [← hhttp]
      exact hanswer

/-- The connection as a file is cut for it, and its head written. -/
theorem staticHttp_fresh (pf : Platform) (cfg : ServerConfig) (w : World) {v : View}
    (normalized : Str) (size : Nat) (hv : Untouched v) :
    (fillLastByte (staticHttp pf cfg w v.slot.http normalized) size).rangeIf = none ∧
      ∃ buf checkedIdx, (staticHttp pf cfg w v.slot.http normalized).range
        = (withRange HttpConn.new (requestRange pf buf checkedIdx)).range := by
  obtain ⟨buf, checkedIdx, state, hrecv⟩ := hv.received
  refine ⟨?_, buf, checkedIdx, ?_⟩
  · rw [fillLastByte_rangeIf]
    show (resolveRequest pf cfg w (readRequest pf v.slot.http) normalized).rangeIf = none
    rw [resolveRequest_keeps HttpConn.rangeIf fun _ _ _ _ => rfl, readRequest_rangeIf, hrecv]
    rfl
  · rw [staticHttp_range, hrecv, readRequest_range]

/--
**A request answered with a file gets a head that agrees with its body**, when the
file is not empty and the range it asked for, brought back into the file, is not
reversed.  The head is the one `build_full_response` wrote, and the length of its
range is one the source can take in an `i64`.
-/
theorem static_get_consistent {pf : Platform} {cfg : ServerConfig} {w : World} {v v' : View}
    {handed opened : Path} {node : Node} {data : Bytes} (hv : Untouched v)
    (h : processRequest pf cfg w v = .ok v')
    (hfile : v'.slot.http.payload = .file handed opened)
    (hmime : v'.slot.http.mimeFlag = true) (hnode : w.fs.stat opened = .ok node)
    (hmap : w.mmap opened = some data) (hlen : data.length = node.len) (hpos : 0 < node.len)
    (hmax : (data.length : Int) ≤ i64Max)
    (hrange : v'.slot.http.gotRange = false ∨
      v'.slot.http.firstByteIndex ≤ v'.slot.http.lastByteIndex ∨
      (node.len : Int) ≤ v'.slot.http.firstByteIndex) :
    ∃ http head body,
      head = fullHead pf w.unixNow http 200 okText (figureMime opened).mimeType node.len
        node.attr.mtime (encodingHeaders (figureMime opened)) http.rangeLen ∧
      v'.slot.http.response = head.render ++ body ∧ Agrees head data body ∧
      (partialContent http 200 node.len (modTime w.unixNow node.attr.mtime) = true →
        rangeLength pf http = .ok http.rangeLen) := by
  obtain ⟨normalized, node', hnode', hanswer⟩ := processRequest_file hv h hfile
  cases hnode.symm.trans hnode'
  obtain ⟨hif, buf, checkedIdx, hr⟩ := staticHttp_fresh pf cfg w normalized node.len hv
  obtain ⟨h0, hf, hlast⟩ := request_range_bounds hr hpos
  obtain ⟨data', body, hmap', hbody, hresp⟩ := hanswer.mapped
  cases hmap.symm.trans hmap'
  have hhead := hanswer.mimeFlag.symm.trans hmime
  have hrangeEq := hanswer.range
  simp only [HttpConn.range, Prod.mk.injEq] at hrangeEq
  rw [hrangeEq.1, hrangeEq.2.1, hrangeEq.2.2] at hrange
  refine ⟨fillLastByte (staticHttp pf cfg w v.slot.http normalized) node.len, _, body, rfl,
    ?_, ?_, fun hpart => ?_⟩
  · rw [hresp]
    unfold withBody fileHead buildFullResponse
    rw [if_pos hhead]
    simp only [hhead, if_true]
  · rw [← hlen] at hlast hif h0 hf hbody hrange ⊢
    exact fullHead_agrees hif hmax h0 hf hlast hrange hbody
  · unfold partialContent at hpart
    simp only [Bool.and_eq_true, decide_eq_true_eq] at hpart
    obtain ⟨⟨⟨⟨hgot, -⟩, horder⟩, -⟩, -⟩ := hpart
    exact rangeLength_eq pf h0 horder (by have := (hlast hgot).2; omega)

/-! ### Four bytes of ten

A part in the middle of a file, with a head that says so.
-/

/-- A connection that received a request for bytes 2 to 5 of a file of ten. -/
def fourByteView : View :=
  ⟨Shared.start none,
    { ConnSlot.accepted localPeer with
      http := .received (tenByteRequest "bytes=2-5") 42 .gotRequest }⟩

/-- The answer it gets. -/
def fourByteAnswer : View :=
  resultOf fourByteView
    (processRequest .epoch wwwConfig (World.still tenByteTree) fourByteView)

/-- Its head agrees with its body. -/
theorem static_get_consistent_sample :
    ∃ head body, fourByteAnswer.slot.http.response = head.render ++ body ∧
      Agrees head [0, 1, 2, 3, 4, 5, 6, 7, 8, 9] body := by
  have hrun : processRequest .epoch wwwConfig (World.still tenByteTree) fourByteView
      = .ok fourByteAnswer := eq_ok_of_panicOf _ (by decide +kernel)
  have hfile : fourByteAnswer.slot.http.payload
      = .file (Path.parse "/www/f.txt".toList) (Path.parse "/www/f.txt".toList) := by
    decide +kernel
  have hlen : ((World.still tenByteTree).fs.stat (Path.parse "/www/f.txt".toList)).toOption.map
      Node.len = some 10 := by decide +kernel
  have hnode : ∃ node,
      (World.still tenByteTree).fs.stat (Path.parse "/www/f.txt".toList) = .ok node ∧
        node.len = 10 := by
    cases hs : (World.still tenByteTree).fs.stat (Path.parse "/www/f.txt".toList) with
    | error e => rw [hs] at hlen; cases hlen
    | ok node => rw [hs] at hlen; exact ⟨node, rfl, Option.some.inj hlen⟩
  obtain ⟨node, hstat, hten⟩ := hnode
  have hmap : (World.still tenByteTree).mmap (Path.parse "/www/f.txt".toList)
      = some [0, 1, 2, 3, 4, 5, 6, 7, 8, 9] := by decide +kernel
  obtain ⟨http, head, body, -, hresp, hagrees, -⟩ := static_get_consistent
    ⟨rfl, rfl, rfl, _, _, _, rfl⟩ hrun hfile (by decide +kernel) hstat hmap hten.symm (by omega)
    (by decide) (.inr (.inl (by decide +kernel)))
  exact ⟨head, body, hresp, hagrees⟩

end Thttpd
