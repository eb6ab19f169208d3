/-
One request, one log line.

What a client can put into the log is a word of the request line, the value of a header
line, or a part of one.  None of these holds a line feed, so a line of the log ends where
the server ends it.

The last step is not about line feeds only.  A line is one when it has a single line
feed, which is its last character and has no carriage return in front of it
(`OneLine`).  Fields are cut at a length in bytes before they are printed, and a cut
through a character would leave a byte that is read as something else; that the cut
keeps whole characters is shown first.
-/
import Thttpd.Core.Logging
import Thttpd.Lib.Split
import Thttpd.Proofs.Answer
import Thttpd.Proofs.Buffer

namespace Thttpd

open Text Fs

/-! ### Cutting a field

The source walks the boundaries of the characters and takes the last that is within
the limit.
-/

/-- The boundaries are where the characters begin. -/
theorem charIndices_getElem? (i n : Nat) (s : Str) :
    (charIndices i s)[n]? = if n < s.length then some (i + (asBytes (s.take n)).length) else none := by
  induction s generalizing i n with
  | nil => rfl
  | cons c s ih =>
      cases n with
      | zero => rfl
      | succ n =>
          rw [charIndices, List.getElem?_cons_succ, ih, List.length_cons, List.take_succ_cons,
            asBytes_length_cons, Nat.add_assoc]
          simp only [Nat.add_lt_add_iff_right]

/--
**Truncation keeps whole characters.**

The source looks for the place of character `n` and slices there, which is an edge
between characters by construction.
-/
theorem truncate_eq (s : Str) (n : Nat) : truncate s n = some (s.take n) := by
  unfold truncate
  rw [charIndices_getElem?]
  by_cases hn : n < s.length
  · have hcut := strTo_append (s.take n) (s.drop n)
    rw [List.take_append_drop] at hcut
    rw [if_pos hn, Nat.zero_add]
    exact hcut
  · rw [if_neg hn, List.take_of_length_le (Nat.le_of_not_lt hn)]

/-! ### The line

The line is built of fields that come from the client and of numbers, dates and
marks that do not.  Only the first kind can hold anything odd.
-/

/-- A line with nothing in it that would end it. -/
structure LogEntry.Clean (entry : LogEntry) : Prop where
  remoteAddr : '\n' ∉ entry.remoteAddr
  method : '\n' ∉ entry.method
  url : '\n' ∉ entry.url
  protocol : '\n' ∉ entry.protocol
  referer : '\n' ∉ entry.referer
  userAgent : '\n' ∉ entry.userAgent

/-- A number is digits and padding. -/
theorem padInt_noLf (width : Nat) (n : Int) : '\n' ∉ padInt width n := by
  have hdigits := (natStr_noBreak n.natAbs).2
  unfold padInt
  simp only [List.mem_append, List.mem_replicate, not_or]
  refine ⟨⟨?_, fun h => absurd h.2 (by decide)⟩, hdigits⟩
  split
  · decide
  · exact List.not_mem_nil

/-- A date is numbers and marks. -/
theorem cernLocaltime_noLf (tm : Tm) : '\n' ∉ cernLocaltime tm := by
  have hmonths : ∀ month ∈ months, '\n' ∉ month := by decide
  have hmonth : '\n' ∉ (months[min (asUsize tm.mon) 11]?).getD [] := by
    cases hm : months[min (asUsize tm.mon) 11]? with
    | none => exact List.not_mem_nil
    | some month => exact hmonths month (List.mem_of_getElem? hm)
  have hsign : ∀ z : Int, '\n' ∉ [' ', if 0 ≤ z then '+' else '-'] := by
    intro z
    split
    · decide
    · decide
  unfold cernLocaltime
  simp only [List.mem_append, not_or, padInt_noLf, hmonth, hsign, List.mem_singleton,
    not_false_eq_true, and_true, true_and]
  decide

/-- A line of fields without line feeds ends at its own. -/
theorem cernLine_clean {addr user date method url protocol status bytes referer userAgent : Str}
    (haddr : '\n' ∉ addr) (huser : '\n' ∉ user) (hdate : '\n' ∉ date) (hmethod : '\n' ∉ method)
    (hurl : '\n' ∉ url) (hprotocol : '\n' ∉ protocol) (hstatus : '\n' ∉ status) (hbytes : '\n' ∉ bytes)
    (hreferer : '\n' ∉ referer) (huserAgent : '\n' ∉ userAgent) :
    ∃ body, cernLine addr user date method url protocol status bytes referer userAgent =
      body ++ ['"'] ++ ['\n'] ∧ '\n' ∉ body := by
  have hfixed : ∀ t ∈ [" - ", " [", "] \"", "\" ", " \"", "\" \""].map String.toList, '\n' ∉ t := by decide
  simp only [List.map_cons, List.map_nil, List.forall_mem_cons] at hfixed
  refine ⟨_, rfl, ?_⟩
  simp only [List.mem_append, not_or, haddr, huser, hdate, hmethod, hurl, hprotocol, hstatus, hbytes,
    hreferer, huserAgent, hfixed, List.mem_singleton, not_false_eq_true, and_true, true_and]
  decide

/-- One line feed, at the end and not behind a carriage return. -/
structure OneLine (line : Str) : Prop where
  count : line.count '\n' = 1
  last : line.getLast? = some '\n'
  noCrLf : ¬ ['\r', '\n'] <:+: line

/-- A text without line feeds, ended by one. -/
theorem oneLine_of_body {body : Str} (h : '\n' ∉ body) : OneLine (body ++ ['"'] ++ ['\n']) := by
  have hquoted : '\n' ∉ body ++ ['"'] := by simp [h]
  refine ⟨?_, List.getLast?_concat, ?_⟩
  · rw [List.count_append, List.count_eq_zero_of_not_mem hquoted]
    rfl
  · rintro ⟨u, v, huv⟩
    -- The line feed of the pair would be the last, behind the quote.
    rcases List.eq_nil_or_concat v with rfl | ⟨v, c, rfl⟩
    · have hpair : u ++ ['\r'] ++ ['\n'] = body ++ ['"'] ++ ['\n'] := by simpa using huv
      have hlast := List.append_inj_right' (List.append_cancel_right hpair) rfl
      cases hlast
    · have hinner : (u ++ ['\r', '\n'] ++ v) ++ [c] = (body ++ ['"']) ++ ['\n'] := by simpa using huv
      have hbody := List.append_inj_left' hinner rfl
      exact hquoted (hbody ▸ by simp)

/--
**A clean entry is one line.**

The fields are cut to a length and put between quotes and spaces; nothing that is
put around them is a line end.
-/
theorem LogEntry.Clean.oneLine {entry : LogEntry} (h : entry.Clean) (tm : Tm) :
    ∃ line, logLine tm entry = some line ∧ OneLine line := by
  have htake : ∀ {s : Str} (n : Nat), '\n' ∉ s → '\n' ∉ s.take n :=
    fun n hs hc => hs (List.mem_of_mem_take hc)
  have huser : '\n' ∉ (if (['-'] : Str) = [] then ['-'] else ['-']) := by decide
  have hbytes : '\n' ∉ if 0 ≤ entry.bytesSent then intStr entry.bytesSent else ['-'] := by
    split
    · exact (intStr_noBreak _).2
    · decide
  obtain ⟨body, hline, hbody⟩ := cernLine_clean (htake 80 h.remoteAddr) (htake 80 huser)
    (cernLocaltime_noLf tm) (htake 80 h.method) (htake 300 h.url) (htake 80 h.protocol)
    (natStr_noBreak entry.status).2 hbytes (htake 200 h.referer) (htake 200 h.userAgent)
  refine ⟨_, ?_, oneLine_of_body hbody⟩
  unfold logLine formatCernLine
  simp only [truncate_eq, bind, Option.bind_some, pure, hline]

/-! ### What a request brings

The log takes the URL, the user, the host and the agent.  `logTexts` gathers them, so
that what a handler does to them is said once: it reads them from the request, or it
leaves them.
-/

/-- What the client sent of what is logged. -/
def HttpConn.logTexts (http : HttpConn) : List Str :=
  [http.encodedUrl, http.httpVersion, http.referer, http.userAgent, http.xForwardedFor]

/-- None of them holds a line feed. -/
def HttpConn.NoLf (http : HttpConn) : Prop := ∀ t ∈ http.logTexts, '\n' ∉ t

theorem noLf_iff {http : HttpConn} : http.NoLf ↔ '\n' ∉ http.encodedUrl ∧ '\n' ∉ http.httpVersion ∧
    '\n' ∉ http.referer ∧ '\n' ∉ http.userAgent ∧ '\n' ∉ http.xForwardedFor := by
  simp only [HttpConn.NoLf, HttpConn.logTexts, List.forall_mem_cons, List.not_mem_nil, false_imp_iff,
    implies_true, and_true]

/-- It depends on the texts alone. -/
theorem HttpConn.NoLf.of_logTexts {http http' : HttpConn} (h : http.NoLf)
    (heq : http'.logTexts = http.logTexts) : http'.NoLf := by
  unfold HttpConn.NoLf
  rw [heq]
  exact h

/-- An answer leaves them as they are. -/
theorem keptByAnswer_logTexts : KeptByAnswer HttpConn.logTexts := fun _ _ _ _ _ _ _ _ _ _ => rfl

/-- The value of a header is a part of a line. -/
theorem extractHeader_noLf {pf : Platform} {headers : Bytes} {name : String} {value : Str}
    (h : extractHeader pf headers name = some value) : '\n' ∉ value := by
  obtain ⟨line, hfound, rfl⟩ := Option.map_eq_some_iff.mp h
  intro hc
  exact notMem_of_mem_lines (List.mem_of_find?_eq_some hfound) (mem_of_mem_dropBytes (mem_of_mem_trim hc))

/-- The first address of a list is a part of it. -/
theorem firstForwarded_subset (xff : Str) : firstForwarded xff ⊆ xff := by
  intro c hc
  have hhead := mem_of_mem_trim hc
  obtain ⟨first, rest, hsplit⟩ := exists_splitOn ',' xff
  rw [hsplit, List.headD_cons] at hhead
  exact subset_of_mem_splitOn (hsplit ▸ List.mem_cons_self) hhead

section

variable {pf : Platform} {http : HttpConn}

/-- The words of the request line hold no white space. -/
theorem readRequestLine_noLf (h : http.NoLf) : (readRequestLine pf http).NoLf := by
  obtain ⟨-, -, hreferer, hagent, hxff⟩ := noLf_iff.mp h
  have hword : ∀ (n : Nat) (d : Str), '\n' ∉ d → '\n' ∉ ((requestWords http.requestBytes)[n]?).getD d := by
    intro n d hd
    cases hw : (requestWords http.requestBytes)[n]? with
    | none => exact hd
    | some w => exact (NoBreak.of_unbroken (unbroken_of_mem (List.mem_of_getElem? hw))).2
  exact noLf_iff.mpr ⟨hword 1 _ (by decide), hword 2 _ (by decide), hreferer, hagent, hxff⟩

/-- The fields are values of headers. -/
theorem readFields_noLf {header : String → Option Str}
    (hheader : ∀ name value, header name = some value → '\n' ∉ value) (h : http.NoLf) :
    (readFields header http).NoLf := by
  obtain ⟨hurl, hversion, hreferer, hagent, hxff⟩ := noLf_iff.mp h
  have hfield : ∀ (name : String) (d : Str), '\n' ∉ d → '\n' ∉ (header name).getD d := by
    intro name d hd
    cases hv : header name with
    | none => exact hd
    | some value => exact hheader name value hv
  refine noLf_iff.mpr ⟨hurl, hversion, hfield _ _ hreferer, hfield _ _ hagent, ?_⟩
  unfold readFields
  simp only
  cases hv : header "X-Forwarded-For" with
  | none => exact hxff
  | some xff =>
      simp only
      split
      · exact hxff
      · exact fun hc => hheader _ xff hv (firstForwarded_subset xff hc)

theorem readRequest_noLf (h : http.NoLf) : (readRequest pf http).NoLf := by
  have hcond := readConditions_keeps HttpConn.logTexts (fun _ _ _ _ => rfl) (fun _ _ => rfl) pf
    (extractHeader pf (headerBytes (readRequestLine pf http).requestBytes)) (readRequestLine pf http)
  exact readFields_noLf (fun _ _ hv => extractHeader_noLf hv)
    ((readRequestLine_noLf h).of_logTexts hcond)

end

/-! ### What the handlers leave of it

Only a read puts texts into a connection, and it puts in what it cut from the bytes
of one request.  The other handlers carry them along.
-/

section

variable {pf : Platform} {cfg : ServerConfig} {w : World} {v v' : View}

theorem dispatchCgi_noLf (hv : v.slot.http.NoLf) (h : dispatchCgi pf cfg w v = .ok v') :
    v'.slot.http.NoLf := by
  obtain ⟨info, hkept, -⟩ := dispatchCgi_keeps keptByAnswer_logTexts h
  exact hv.of_logTexts hkept

theorem processRequest_noLf (hv : v.slot.http.NoLf) (h : processRequest pf cfg w v = .ok v') :
    v'.slot.http.NoLf := by
  have herror : ∀ {x : View} {e : ErrorReply}, x.slot.http.NoLf → sendError pf w x e = .ok v' →
      v'.slot.http.NoLf := fun hx he => hx.of_logTexts (sendError_keeps keptByAnswer_logTexts he)
  unfold processRequest at h
  split at h
  · exact herror (readRequestLine_noLf hv) h
  have hread : (v.mapHttp (readRequest pf)).slot.http.NoLf := readRequest_noLf hv
  unfold routeRequest at h
  split at h
  · exact herror hread h
  split at h
  · exact herror hread h
  rename_i normalized _
  have hres := resolveRequest_keeps HttpConn.logTexts (fun _ _ _ _ => rfl) pf cfg w
    (readRequest pf v.slot.http) normalized
  have hresolved := hread.of_logTexts hres
  unfold chooseHandler at h
  split at h
  · refine dispatchCgi_noLf ?_ h
    exact hresolved
  split at h
  · exact herror hresolved h
  · have hkept := serveStatic_keeps keptByAnswer_logTexts h
    exact hresolved.of_logTexts hkept

/-- What a read cuts out of the bytes of a request holds no line feed. -/
theorem handleRead_noLf {out : Outcome} {slot : ConnSlot} (hv : v.slot.http.NoLf)
    (h : handleRead pf cfg w v = .ok out) (hslot : out.slot = some slot) : slot.http.NoLf := by
  have hrefuse : ∀ {x : View}, x.slot.http.NoLf → refuseUnparsed pf w x = .ok out → slot.http.NoLf := by
    intro x hx hr
    obtain ⟨v', hv', hr⟩ := bind_eq_ok.mp hr
    cases hr
    cases hslot
    have hkept := transitionToSending_keeps keptByAnswer_logTexts hv'
    exact hx.of_logTexts (hkept.trans (keptByAnswer_logTexts.respond x _ _))
  unfold handleRead at h
  simp only at h
  split at h
  · exact hrefuse hv h
  split at h
  · cases h
    cases hslot
  split at h
  · cases h
    cases hslot
    exact hv
  · cases h
    cases hslot
  split at h
  · cases h
    cases hslot
  -- The bytes that came are not looked at by what is logged.
  split at h
  · unfold resumeCgi at h
    split at h
    · obtain ⟨v', hv', h⟩ := bind_eq_ok.mp h
      cases h
      cases hslot
      refine dispatchCgi_noLf ?_ hv'
      exact hv
    · cases h
      cases hslot
      exact hv
  · rw [detectRequest_eq] at h
    split at h
    · cases h
      cases hslot
      exact hv
    · refine hrefuse ?_ h
      exact hv
    · obtain ⟨v', hv', h⟩ := bind_eq_ok.mp h
      cases h
      cases hslot
      refine processRequest_noLf ?_ hv'
      exact hv

/-- A write leaves them alone. -/
theorem handleSend_noLf {out : Outcome} {slot : ConnSlot} (hv : v.slot.http.NoLf)
    (h : handleSend pf w v = .ok out) (hslot : out.slot = some slot) : slot.http.NoLf := by
  cases handleSend_ends h with
  | finished _ =>
      cases hslot
      exact hv
  | paused _ _ =>
      cases hslot
      exact hv
  | closed _ => cases hslot
  | blocked _ _ =>
      cases hslot
      exact hv
  | @wrote limit n stream remaining _ _ _ _ _ =>
      have hhttp := (chargeBody_http w (countWritten v stream
        ((remaining.take (min limit remaining.length)).take n)) v.slot.http.bytesSent).1
      have hcounted : (countWritten v stream
          ((remaining.take (min limit remaining.length)).take n)).slot.http.NoLf := hv
      have hcharged := hcounted.of_logTexts (congrArg HttpConn.logTexts hhttp)
      unfold afterWrite at hslot
      simp only at hslot
      split at hslot
      · cases hslot
        exact hcharged
      · cases hslot
        exact hcharged

/--
**No event puts a line feed into what is logged.**

The texts of the log come from the request line and from headers, which are read
line by line.
-/
theorem handleConnectionEvent_noLf {out : Outcome} {slot : ConnSlot} (hv : v.slot.http.NoLf)
    (h : handleConnectionEvent pf cfg w v = .ok out) (hslot : out.slot = some slot) : slot.http.NoLf := by
  cases handleConnectionEvent_ends h with
  | reading _ h => exact handleRead_noLf hv h hslot
  | sending _ h => exact handleSend_noLf hv h hslot
  | pausing _ h =>
      cases handlePause_ends h with
      | waits =>
          cases hslot
          exact hv
      | closed => cases hslot
      | woke h => exact handleSend_noLf (v := wake v) hv h hslot
  | lingering _ => cases hslot
  | free _ =>
      cases hslot
      exact hv

/-! ### The log

An entry is appended where a connection is closed, and there it is made of that
connection.  No handler writes an entry for another connection, nor two.
-/

/-- The log as a handler leaves it: as it was, or with the entry of the connection. -/
def LogsAtMost (v : View) (out : Outcome) : Prop :=
  out.shared.accessLog = v.shared.accessLog ∨
    out.shared.accessLog = v.shared.accessLog ++ [logEntry v.slot]

/-- Closing logs the connection, if it has anything to be logged. -/
theorem closeConnection_logs (v : View) : LogsAtMost v (closeConnection v) := by
  unfold LogsAtMost closeConnection
  simp only
  split
  · exact .inr rfl
  · exact .inl rfl

/-- Preparing an answer logs nothing. -/
theorem Prepares.accessLog {u : View} (h : Prepares pf cfg w v u) :
    u.shared.accessLog = v.shared.accessLog := by
  have hrelease : ∀ (x : View) (charge : Option Int),
      (releaseCgi x charge).shared.accessLog = x.shared.accessLog := by
    intro x charge
    unfold releaseCgi
    split <;> rfl
  have hdressed : ∀ {x : View}, Dressed v x → x.shared.accessLog = v.shared.accessLog :=
    fun hx => congrArg Shared.accessLog hx.shared
  cases h with
  | page hu => exact hdressed hu
  | file hx _ hu =>
      have hlog := hdressed hx
      rw [hu.shared]
      exact hlog
  | refused hx _ hu =>
      have hlog := hdressed hx
      rw [hu.shared]
      exact hlog
  | ran hx _ _ hu =>
      have hlog := hdressed hx
      rw [hu.shared, afterCgi, hrelease]
      exact hlog

theorem handleRead_logs {out : Outcome} (h : handleRead pf cfg w v = .ok out) : LogsAtMost v out := by
  cases handleRead_ends h with
  | closed => exact closeConnection_logs v
  | goesOn hu => exact .inl (congrArg Shared.accessLog hu.shared)
  | answered ha =>
      obtain ⟨⟨d, throttles⟩, -, hsend⟩ := bind_eq_ok.mp ha.sends
      cases hsend
      exact .inl ha.prepares.accessLog

theorem handleSend_logs {out : Outcome} (h : handleSend pf w v = .ok out) : LogsAtMost v out := by
  cases handleSend_ends h with
  | finished _ => exact .inl rfl
  | paused _ _ => exact .inl rfl
  | closed _ => exact closeConnection_logs v
  | blocked _ _ => exact .inl rfl
  | wrote =>
      refine .inl ?_
      unfold afterWrite chargeBody
      simp only
      split
      · split <;> rfl
      · split <;> rfl

/--
**An event logs the connection it closes, and nothing else.**

A connection that is closed leaves at most one entry, made of what it holds then.
-/
theorem handleConnectionEvent_logs {out : Outcome} (h : handleConnectionEvent pf cfg w v = .ok out) :
    LogsAtMost v out := by
  cases handleConnectionEvent_ends h with
  | reading _ h => exact handleRead_logs h
  | sending _ h => exact handleSend_logs h
  | pausing _ h =>
      cases handlePause_ends h with
      | waits => exact .inl rfl
      | closed => exact closeConnection_logs (wake v)
      | woke h => exact handleSend_logs (v := wake v) h
  | lingering _ => exact closeConnection_logs v
  | free _ => exact .inl rfl

end

/-- What a connection without line feeds is logged as. -/
theorem logEntry_clean {slot : ConnSlot} (hhttp : slot.http.NoLf) {addr : Net.SocketAddr}
    (hpeer : slot.peerAddr = some (PeerAddr.of addr)) : (logEntry slot).Clean := by
  obtain ⟨hurl, hversion, hreferer, hagent, hxff⟩ := noLf_iff.mp hhttp
  have hmethod : ∀ m : Method, '\n' ∉ m.asStr := by
    intro m
    cases m <;> decide
  have haddr : '\n' ∉ addr.ip.display := by
    intro hc
    exact absurd (addr.ip.isAddrChar_display _ hc) (by decide)
  refine ⟨?_, hmethod _, hurl, ?_, hreferer, hagent⟩
  · unfold logEntry
    rw [hpeer]
    simp only
    split
    · exact hxff
    · exact haddr
  · unfold logEntry
    simp only
    split
    · exact hversion
    · exact List.not_mem_nil

/-! ### Runs

Two things go along with a run: what is in the log already and what the open
connections would put there.
-/

/-- Nothing that is logged, or may be, holds a line feed. -/
structure LogSafe (s : Server) : Prop where
  peers : s.FromSockets
  slots : ∀ slot, some slot ∈ s.conns → slot.http.NoLf
  entries : ∀ entry ∈ s.shared.accessLog, entry.Clean

/-- A step moves texts from the connections to the log. -/
theorem LogSafe.step {pf : Platform} {cfg : ServerConfig} {s s' : Server} (h : LogSafe s)
    (hstep : Step pf cfg s s') (hpeers : s'.FromSockets) : LogSafe s' := by
  rcases hstep.cases with ⟨k, peer, -, rfl⟩ | ⟨w, k, slot, out, hk, hout, rfl⟩ | ⟨w, ht⟩ |
    ⟨hshared, hconns⟩
  · have hnew : (ConnSlot.accepted peer).http.NoLf := by
      intro t ht
      have hempty : ∀ t ∈ (ConnSlot.accepted peer).http.logTexts, t = [] := by
        show ∀ t ∈ HttpConn.new.logTexts, t = []
        decide
      rw [hempty t ht]
      exact List.not_mem_nil
    exact ⟨hpeers, Slab.forall_put h.slots hnew, h.entries⟩
  · have hmem := Slab.mem_of_at? hk
    have hslot := h.slots slot hmem
    obtain ⟨addr, hpeer⟩ := h.peers slot hmem
    refine ⟨hpeers, Slab.forall_update h.slots fun slot' hs => ?_, ?_⟩
    · exact handleConnectionEvent_noLf (v := s.view slot) hslot hout hs
    · intro entry hentry
      rcases handleConnectionEvent_logs hout with hsame | hmore
      · exact h.entries entry (hsame ▸ hentry)
      · have hentry : entry ∈ s.shared.accessLog ++ [logEntry slot] := hmore ▸ hentry
        rcases List.mem_append.mp hentry with hold | hnew
        · exact h.entries entry hold
        · rw [List.mem_singleton.mp hnew]
          exact logEntry_clean hslot hpeer
  · obtain ⟨throttles, -, ht⟩ := bind_eq_ok.mp ht
    cases ht
    refine ⟨hpeers, Slab.forall_mapEntries fun k slot hs => ?_, h.entries⟩
    rw [tickSlot_http]
    exact h.slots slot hs
  · exact ⟨hpeers, hconns ▸ h.slots, hshared ▸ h.entries⟩

/-- So in every state all of it is free of line feeds. -/
theorem Server.Logging.safe {pf : Platform} {cfg : ServerConfig} {s : Server} (h : s.Logging pf cfg) :
    LogSafe s := by
  refine Lts.Reachable.invariant LogSafe h ?_ (fun _ _ hs hstep => hs.step hstep.1 hstep.2)
  rintro s ⟨hinit, hempty⟩
  have hnone : ∀ slot, some slot ∉ s.conns := by
    intro slot
    rw [hinit.noConns]
    exact List.not_mem_nil
  refine ⟨fun slot hs => absurd hs (hnone slot), fun slot hs => absurd hs (hnone slot), ?_⟩
  rw [hempty]
  exact fun entry hs => absurd hs List.not_mem_nil

/--
**One request, one log line.**

An entry is one line whatever the client sent, since no field of it holds a line
feed, and cutting a field does not split a character.
-/
theorem one_log_line {pf : Platform} {cfg : ServerConfig} {s : Server} (h : s.Logging pf cfg) (tm : Tm) :
    (∀ entry ∈ s.shared.accessLog, ∃ line, logLine tm entry = some line ∧ OneLine line) ∧
      ∀ (field : Str) (n : Nat), truncate field n = some (field.take n) :=
  ⟨fun entry hentry => (h.safe.entries entry hentry).oneLine tm, truncate_eq⟩

/-! ### A request that is logged

Line ends at odd places: a bare carriage return in a header and a line feed alone
behind the request line.
-/

/-- A client on this machine has an address as sockets have them. -/
theorem fromSockets_of_local {s : Server}
    (h : (s.conns.all fun o => o.all fun slot => slot.peerAddr == some localPeer) = true) : s.FromSockets := by
  intro slot hs
  have hslot := List.all_eq_true.mp h _ hs
  have hpeer : slot.peerAddr = some localPeer := by simpa using hslot
  have haddr : localPeer = PeerAddr.of ⟨.v4 127 0 0 1, 9, 0⟩ := by decide
  exact ⟨_, hpeer.trans (congrArg some haddr)⟩

/-- A world in which a request with line ends in odd places arrives, and its answer is taken. -/
def oddWorld : World :=
  { World.still (wwwTree [("f.txt".toList, plainFile [1, 2, 3])]) with
    read := .data (asBytes "GET /f.txt HTTP/1.0\r\nReferer: a\rb\r\nUser-Agent: c\r\r\n\r\n".toList)
    write := .accepted 1000 }

/-- The connection after so many events. -/
def oddServer : Nat → Server
  | 0 => Server.first none
  | n + 1 => resultOf (Server.start none) ((oddServer n).event .epoch wwwConfig oddWorld 0)

theorem oddServer_logging : (oddServer 3).Logging .epoch wwwConfig := by
  have hinit : (Server.start none).Init := ⟨rfl, rfl, rfl, fun _ h => by cases h⟩
  have hroom : Slab.len ([] : Slab ConnSlot) < maxConnections := by decide
  have haccept : Step .epoch wwwConfig (Server.start none) (oddServer 0) :=
    .accept localPeer rfl hroom ⟨Nat.le_refl 0, rfl⟩
  have hstart : (oddServer 0).Logging .epoch wwwConfig :=
    (Lts.Reachable.start ⟨hinit, rfl⟩).tail ⟨haccept, fromSockets_of_local (by decide)⟩
  have hone : (oddServer 1).Logging .epoch wwwConfig :=
    hstart.tail ⟨.event oddWorld 0 (eq_ok_of_panicOf _ (by decide +kernel)),
      fromSockets_of_local (by decide +kernel)⟩
  have htwo : (oddServer 2).Logging .epoch wwwConfig :=
    hone.tail ⟨.event oddWorld 0 (eq_ok_of_panicOf _ (by decide +kernel)),
      fromSockets_of_local (by decide +kernel)⟩
  exact htwo.tail ⟨.event oddWorld 0 (eq_ok_of_panicOf _ (by decide +kernel)),
    fromSockets_of_local (by decide +kernel)⟩

/-- The first second of 1970. -/
def epochTm : Tm := ⟨1, 0, 70, 0, 0, 0, 0, by decide⟩

theorem one_log_line_odd :
    ∃ entry, (oddServer 3).shared.accessLog = [entry] ∧
      ∃ line, logLine epochTm entry = some line ∧ OneLine line := by
  have hlogged : (oddServer 3).shared.accessLog.length = 1 := by decide +kernel
  obtain ⟨entry, hentry⟩ := List.length_eq_one_iff.mp hlogged
  refine ⟨entry, hentry, ?_⟩
  exact (one_log_line oddServer_logging epochTm).1 entry (by rw [hentry]; exact List.mem_singleton_self entry)

end Thttpd
