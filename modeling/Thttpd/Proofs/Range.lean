/-
When a `Range` header is safe.

The header value is read into two positions, the last one is brought back into the
file, and the body is cut out between them.  Two things can go wrong there.  On an
empty file the last position becomes -1, which as an unsigned number is the largest
there is, and one is added to it.  And a range may name a first position behind its
last: both lie inside the file, so neither of the two guards sees it.

`askedRange` says what a header value asks for without the connection fields the
code keeps it in, and `Cuttable` is what the slicing needs.
-/
import Thttpd.Core.EventLoop

namespace Thttpd

open Text Fs

/-! ### What a header value asks for

The parser writes into three fields of the connection.  Without them it is a function
from the value to two positions, of which the second may be missing.
-/

/-- The positions a `Range` value names: the first, and the last if it can be read. -/
def askedRange (range : Str) : Option (Int × Option Int) :=
  if range.contains ',' then none
  else (splitOnce '=' range).bind fun unitSpec =>
    (splitOnce '-' unitSpec.2).bind fun bounds =>
      (parseI64 bounds.1).map fun first => (first, parseI64 bounds.2)

/-- What reading a header value leaves of the range fields. -/
def withRange (http : HttpConn) : Option (Int × Option Int) → HttpConn
  | none => http
  | some (first, none) => { http with gotRange := true, firstByteIndex := max first 0 }
  | some (first, some last) =>
      { http with
        gotRange := true
        firstByteIndex := max first 0
        lastByteIndex := max last (-1) }

private theorem parseI64_nil : parseI64 [] = none := rfl

private theorem clampFirst (n : Int) : (if n < 0 then 0 else n) = max n 0 := by
  split <;> omega

private theorem clampLast (n : Int) : (if n < 0 then -1 else n) = max n (-1) := by
  split <;> omega

/-- The parser is `askedRange`, kept in the connection. -/
theorem parseRange_eq (http : HttpConn) (range : Str) :
    parseRange http range = withRange http (askedRange range) := by
  unfold parseRange askedRange
  by_cases hc : range.contains ','
  · rw [if_pos hc, if_pos hc]; rfl
  rw [if_neg hc, if_neg hc]
  cases splitOnce '=' range with
  | none => rfl
  | some unitSpec =>
      simp only [Option.bind_some]
      cases splitOnce '-' unitSpec.2 with
      | none => rfl
      | some bounds =>
          obtain ⟨firstStr, lastStr⟩ := bounds
          simp only [Option.bind_some]
          by_cases hf : firstStr = []
          · rw [if_pos hf, hf, parseI64_nil]; rfl
          rw [if_neg hf]
          cases parseI64 firstStr with
          | none => rfl
          | some first =>
              simp only [Option.map_some, clampFirst]
              by_cases hl : lastStr = []
              · rw [if_pos hl, hl, parseI64_nil]; rfl
              rw [if_neg hl]
              cases parseI64 lastStr with
              | none => rfl
              | some last => simp only [clampLast]; rfl

/-- Both positions are machine integers. -/
theorem askedRange_bounds {range : Str} {first : Int} {last : Option Int}
    (h : askedRange range = some (first, last)) :
    first ≤ i64Max ∧ ∀ l, last = some l → l ≤ i64Max := by
  unfold askedRange at h
  split at h
  · cases h
  · obtain ⟨unitSpec, -, h⟩ := Option.bind_eq_some_iff.mp h
    obtain ⟨bounds, -, h⟩ := Option.bind_eq_some_iff.mp h
    obtain ⟨first', hf, h⟩ := Option.map_eq_some_iff.mp h
    simp only [Prod.mk.injEq] at h
    obtain ⟨rfl, rfl⟩ := h
    exact ⟨(parseI64_range hf).2, fun l hl => (parseI64_range hl).2⟩

/-! ### A request as it is when its bytes are complete

Of all the headers only one sets the range, and it is read off the bytes of the
request.
-/

/-- The value of the `Range` header among the received bytes. -/
def rangeHeader (pf : Platform) (buf : Bytes) (checkedIdx : Nat) : Option Str :=
  extractHeader pf (headerBytes (buf.take checkedIdx)) "Range"

/-- The range a complete request asks for. -/
def requestRange (pf : Platform) (buf : Bytes) (checkedIdx : Nat) :
    Option (Int × Option Int) :=
  (rangeHeader pf buf checkedIdx).bind askedRange

/-- The three fields of a range. -/
def HttpConn.range (http : HttpConn) : Bool × Int × Int :=
  (http.gotRange, http.firstByteIndex, http.lastByteIndex)

theorem withRange_congr {h₁ h₂ : HttpConn} (hr : h₁.range = h₂.range)
    (asked : Option (Int × Option Int)) :
    (withRange h₁ asked).range = (withRange h₂ asked).range := by
  simp only [HttpConn.range, Prod.mk.injEq] at hr
  obtain ⟨hg, hf, hl⟩ := hr
  match asked with
  | none => simp only [withRange, HttpConn.range, hg, hf, hl]
  | some (first, none) => simp only [withRange, HttpConn.range, hl]
  | some (first, some last) => rfl

theorem readFields_range (header : String → Option Str) (http : HttpConn) :
    (readFields header http).range = http.range := rfl

/-- What does not look at the range fields is kept. -/
theorem withRange_keeps {β : Type} (f : HttpConn → β)
    (hf : ∀ http got first last, f { http with
      gotRange := got, firstByteIndex := first, lastByteIndex := last } = f http)
    (http : HttpConn) (asked : Option (Int × Option Int)) : f (withRange http asked) = f http := by
  match asked with
  | none => rfl
  | some (first, none) => exact hf http true (max first 0) http.lastByteIndex
  | some (first, some last) => exact hf http true (max first 0) (max last (-1))

/-- Nor does the date of a condition change anything else. -/
theorem readConditions_keeps {β : Type} (f : HttpConn → β)
    (hf : ∀ http got first last, f { http with
      gotRange := got, firstByteIndex := first, lastByteIndex := last } = f http)
    (hm : ∀ http since, f { http with ifModifiedSince := since } = f http)
    (pf : Platform) (header : String → Option Str) (http : HttpConn) :
    f (readConditions pf header http) = f http := by
  unfold readConditions
  cases header "Range" with
  | none =>
      cases header "If-Modified-Since" with
      | none => rfl
      | some ims => exact hm http (pf.parseHttpDate ims)
  | some range =>
      simp only [parseRange_eq, withRange_keeps f hf]
      cases header "If-Modified-Since" with
      | none => rfl
      | some ims => exact hm http (pf.parseHttpDate ims)

/-- The headers leave what the request line said. -/
theorem readRequest_line {β : Type} (f : HttpConn → β)
    (hf : ∀ http got first last, f { http with
      gotRange := got, firstByteIndex := first, lastByteIndex := last } = f http)
    (hm : ∀ http since, f { http with ifModifiedSince := since } = f http)
    (hh : ∀ header http, f (readFields header http) = f http) (pf : Platform) (http : HttpConn) :
    f (readRequest pf http) = f (readRequestLine pf http) := by
  have hcond := readConditions_keeps f hf hm pf
  exact (hh _ _).trans (hcond _ _)

/-- Of all the headers only `Range` sets the range. -/
theorem readConditions_range (pf : Platform) (header : String → Option Str)
    (http : HttpConn) :
    (readConditions pf header http).range
      = (withRange http ((header "Range").bind askedRange)).range := by
  unfold readConditions
  cases header "Range" with
  | none => cases header "If-Modified-Since" <;> rfl
  | some range =>
      simp only [Option.bind_some, parseRange_eq]
      refine withRange_congr ?_ _
      cases header "If-Modified-Since" <;> rfl

theorem readRequestLine_range (pf : Platform) (http : HttpConn) :
    (readRequestLine pf http).range = http.range := rfl

theorem readRequestLine_requestBytes (pf : Platform) (http : HttpConn) :
    (readRequestLine pf http).requestBytes = http.requestBytes := rfl

theorem readRequest_range (pf : Platform) (buf : Bytes) (checkedIdx : Nat)
    (state : ParseState) :
    (readRequest pf (.received buf checkedIdx state)).range
      = (withRange HttpConn.new (requestRange pf buf checkedIdx)).range := by
  unfold readRequest readHeaders
  rw [readFields_range, readConditions_range, readRequestLine_requestBytes]
  refine withRange_congr ?_ _
  rw [readRequestLine_range]
  rfl

/-! ### Cutting the body

The code fills in the last position, cuts it back into the file, and slices.  Every
step of that is an operation that may overflow or abort, and the condition says when
none does.
-/

/-- The last position once it is brought back into a file of `size` bytes. -/
def lastIn (size : Nat) (last : Int) : Int :=
  if last = -1 ∨ (size : Int) ≤ last then size - 1 else last

theorem fillLastByte_range {http : HttpConn} (hg : http.gotRange = true) (size : Nat) :
    (fillLastByte http size).range
      = (true, http.firstByteIndex, lastIn size http.lastByteIndex) := by
  unfold fillLastByte lastIn
  by_cases hl : http.lastByteIndex = -1 ∨ (size : Int) ≤ http.lastByteIndex
  · rw [if_pos hl, if_pos (by simpa [hg] using hl)]
    simp only [HttpConn.range, hg]
  · rw [if_neg hl, if_neg (by simpa [hg] using hl)]
    simp only [HttpConn.range, hg]

theorem fillLastByte_of_no_range {http : HttpConn} (hg : http.gotRange = false) (size : Int) :
    fillLastByte http size = http := by
  simp [fillLastByte, hg]

/-- In a file that is not empty the last position stays inside. -/
theorem lastIn_bounds {size : Nat} {last : Int} (hs : 0 < size) (hl : -1 ≤ last) :
    0 ≤ lastIn size last ∧ lastIn size last < size := by
  unfold lastIn
  split <;> omega

/-- In an empty file it does not: it is -1. -/
theorem lastIn_empty {last : Int} (hl : -1 ≤ last) : lastIn 0 last = -1 := by
  unfold lastIn
  split <;> omega

/-- The body of a request without a range is the file. -/
theorem rangeBody_whole (pf : Platform) {http : HttpConn} (hg : http.gotRange = false)
    (data : Bytes) : rangeBody pf http data = .ok data := by
  simp [rangeBody, hg, pure, Except.pure]

/-- What the slicing does with a first position and a last one inside the file. -/
theorem rangeBody_inside (pf : Platform) {http : HttpConn} {first last : Int} {data : Bytes}
    (hr : http.range = (true, first, last)) (hf0 : 0 ≤ first) (hf : first ≤ i64Max)
    (hl0 : 0 ≤ last) (hl : last < data.length) (hlen : (data.length : Int) ≤ i64Max) :
    rangeBody pf http data =
      if first < data.length then slice data first.toNat (last.toNat + 1) else .ok data := by
  simp only [HttpConn.range, Prod.mk.injEq] at hr
  obtain ⟨hg, rfl, rfl⟩ := hr
  have hstop : pf.usize (asUsize http.lastByteIndex + 1) = .ok (http.lastByteIndex.toNat + 1) := by
    rw [asUsize_of_nonneg hl0, Platform.usize, if_pos]
    unfold i64Max at hlen
    omega
  simp only [rangeBody, hg, if_true, hstop, asUsize_of_nonneg hf0, bind, Except.bind, pure,
    Except.pure]
  by_cases hin : http.firstByteIndex < data.length
  · rw [if_pos hin, if_pos ⟨by omega, by omega⟩]
  · rw [if_neg hin, if_neg (by omega)]

/-- On an empty file the end of the slice overflows. -/
theorem rangeBody_empty (pf : Platform) {http : HttpConn} {first : Int} {data : Bytes}
    (hr : http.range = (true, first, -1)) :
    rangeBody { pf with overflowChecks := true } http data = .error .overflow := by
  simp only [HttpConn.range, Prod.mk.injEq] at hr
  obtain ⟨hg, rfl, hl⟩ := hr
  have hstop : Platform.usize { pf with overflowChecks := true }
      (asUsize http.lastByteIndex + 1) = .error .overflow := by
    rw [hl]; rfl
  simp only [rangeBody, hg, if_true, hstop, bind, Except.bind]

theorem slice_eq_ok {data : Bytes} {start stop : Nat} (hs : stop ≤ data.length) :
    (∃ body, slice data start stop = .ok body) ↔ start ≤ stop := by
  unfold slice
  rw [if_neg (Nat.not_lt.mpr hs)]
  constructor
  · rintro ⟨body, h⟩
    split at h
    · cases h
    · omega
  · intro h
    rw [if_neg (Nat.not_lt.mpr h)]
    exact ⟨_, rfl⟩

/--
What the slicing needs of a range: a file that is not empty, and no end inside it
more than one position before the start.
-/
def Cuttable (size : Nat) (first : Int) (last : Option Int) : Prop :=
  0 < size ∧ ∀ l, last = some l → 0 ≤ l → first < size → first ≤ l + 1

/-- The range fields a request that asked for something leaves. -/
theorem withRange_range_some (http : HttpConn) (first : Int) (last : Option Int) :
    (withRange http (some (first, last))).range
      = (true, max first 0, (last.map fun l => max l (-1)).getD http.lastByteIndex) := by
  cases last <;> rfl

/--
**The slicing succeeds exactly on the ranges that can be cut.**  Overflow counts as a
failure in every build.

Each of the operations is followed in turn: the length of an empty file less one,
the sum of the last position and one, the two guards, and the slice itself.
-/
theorem rangeBody_ok_iff (pf : Platform) {http : HttpConn} {first : Int} {last : Option Int}
    {data : Bytes} (hr : http.range = (withRange HttpConn.new (some (first, last))).range)
    (hf : first ≤ i64Max) (hlen : (data.length : Int) ≤ i64Max) :
    (∃ body, rangeBody { pf with overflowChecks := true } (fillLastByte http data.length) data
      = .ok body) ↔ Cuttable data.length first last := by
  rw [withRange_range_some] at hr
  simp only [HttpConn.range, Prod.mk.injEq] at hr
  obtain ⟨hg, hfirst, hlast⟩ := hr
  have hl1 : -1 ≤ http.lastByteIndex := by
    rw [hlast]
    cases last with
    | none => exact Int.le_refl _
    | some l => simp only [Option.map_some, Option.getD_some]; omega
  have hfill := fillLastByte_range hg data.length
  rcases Nat.eq_zero_or_pos data.length with hz | hpos
  · -- Nothing can be cut out of an empty file.
    have hempty : lastIn data.length http.lastByteIndex = -1 := by
      rw [hz]; exact lastIn_empty hl1
    rw [hempty] at hfill
    rw [rangeBody_empty pf hfill]
    constructor
    · rintro ⟨body, h⟩; cases h
    · rintro ⟨h, -⟩; omega
  obtain ⟨hb0, hb1⟩ := lastIn_bounds hpos hl1
  rw [rangeBody_inside _ hfill (by omega) (by unfold i64Max at hf ⊢; omega) hb0 hb1 hlen]
  by_cases hin : http.firstByteIndex < data.length
  · rw [if_pos hin, slice_eq_ok (by omega)]
    unfold lastIn at hb0 hb1 ⊢
    constructor
    · intro h
      refine ⟨hpos, ?_⟩
      intro l hl hl0 hfs
      subst hl
      simp only [Option.map_some, Option.getD_some] at hlast
      split at h <;> omega
    · rintro ⟨-, h⟩
      split
      · omega
      · rename_i hno
        cases last with
        | none => exact absurd (Or.inl hlast) hno
        | some l =>
            simp only [Option.map_some, Option.getD_some] at hlast
            have := h l rfl (by omega) (by omega)
            omega
  · rw [if_neg hin]
    constructor
    · intro _
      exact ⟨hpos, fun l _ _ hfs => absurd hfs (by omega)⟩
    · intro _
      exact ⟨data, rfl⟩

/-! ### Requests

The same for the bytes of a request and a file of the tree.
-/

/-- The connection as `serve_static` has it when its bytes came as `buf`. -/
def staticHttp (pf : Platform) (cfg : ServerConfig) (w : World) (http : HttpConn)
    (normalized : Str) : HttpConn :=
  { resolveRequest pf cfg w (readRequest pf http) normalized with charset := cfg.charset }

theorem staticHttp_range (pf : Platform) (cfg : ServerConfig) (w : World) (http : HttpConn)
    (normalized : Str) :
    (staticHttp pf cfg w http normalized).range = (readRequest pf http).range :=
  resolveRequest_keeps HttpConn.range (fun _ _ _ _ => rfl) pf cfg w (readRequest pf http) normalized

/--
**A request gets past the slicing exactly when the range it asks for can be cut out
of the file.**

The connection is any that received these bytes; what its fields held before does
not matter, since reading the headers sets those of the range.
-/
theorem request_range_safe_iff (pf : Platform) (cfg : ServerConfig) (w : World) (buf : Bytes)
    (checkedIdx : Nat) (state : ParseState) (normalized : Str) (data : Bytes)
    (hlen : (data.length : Int) ≤ i64Max) :
    (∃ body, rangeBody { pf with overflowChecks := true }
        (fillLastByte (staticHttp pf cfg w (.received buf checkedIdx state) normalized)
          data.length) data = .ok body) ↔
      ∀ first last, requestRange pf buf checkedIdx = some (first, last) →
        Cuttable data.length first last := by
  have hr := (staticHttp_range pf cfg w (.received buf checkedIdx state) normalized).trans
    (readRequest_range pf buf checkedIdx state)
  cases hasked : requestRange pf buf checkedIdx with
  | none =>
      rw [hasked] at hr
      have hg : (staticHttp pf cfg w (.received buf checkedIdx state) normalized).gotRange
          = false := congrArg Prod.fst hr
      rw [fillLastByte_of_no_range hg, rangeBody_whole _ hg]
      simp
  | some asked =>
      obtain ⟨first, last⟩ := asked
      rw [hasked] at hr
      obtain ⟨range, -, hrange⟩ := Option.bind_eq_some_iff.mp hasked
      rw [rangeBody_ok_iff pf hr (askedRange_bounds hrange).1 hlen]
      simp

/-! ### A crash

A range whose end lies before its beginning.
-/

/-- A file of ten bytes. -/
def tenByteTree : FileSystem :=
  wwwTree [("f.txt".toList, plainFile [0, 1, 2, 3, 4, 5, 6, 7, 8, 9])]

/-- A request for that file with a `Range` header. -/
def tenByteRequest (range : String) : Bytes :=
  asBytes ("GET /f.txt HTTP/1.0\r\nRange: ".toList ++ range.toList ++ "\r\n\r\n".toList)

/-- **A range that ends before it begins aborts the server.** -/
theorem reversed_range_aborts :
    panicOf (handleConnectionEvent .epoch wwwConfig
      { World.still tenByteTree with read := .data (tenByteRequest "bytes=5-2") }
      ⟨Shared.start none, ConnSlot.accepted localPeer⟩) = some .sliceOrder := by
  decide +kernel

/-- The same file and a range of it that can be cut. -/
theorem request_range_safe_sample :
    ∃ body, rangeBody .epoch
      (fillLastByte (staticHttp .epoch wwwConfig (World.still tenByteTree)
        (.received (tenByteRequest "bytes=2-5") 42 .gotRequest) "/f.txt".toList) 10)
      [0, 1, 2, 3, 4, 5, 6, 7, 8, 9] = .ok body :=
  (request_range_safe_iff .epoch wwwConfig (World.still tenByteTree)
    (tenByteRequest "bytes=2-5") 42 .gotRequest "/f.txt".toList
    [0, 1, 2, 3, 4, 5, 6, 7, 8, 9] (by decide)).mpr (by
      intro first last h
      have hr : requestRange .epoch (tenByteRequest "bytes=2-5") 42 = some (2, some 5) := by
        decide +kernel
      rw [hr] at h
      cases h
      refine ⟨by decide, ?_⟩
      intro l hl _ _
      cases hl
      decide)

end Thttpd
