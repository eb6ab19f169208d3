/-
What becomes of a URL: its path, its query, and the cleaned path.

`normalize_path` keeps a stack of names.  It fails where the stack is empty and a `..`
comes, and that is where the components read so far hold more `..` than names.  What it
keeps otherwise is what is left when every `..` is cancelled with the name before it, and
such a path is cleaned already.

`percent_decode` is `strdecode` of the legacy server, but that a `+` becomes a space.  The
legacy server cuts the query off the encoded URL and this one off the decoded URL, so the
two agree only where no escape stands for the question mark and the query is not encoded.

The two parts share the notion of a component and of an escape and little else.  The
first is about any text, the second about the URL of a request line.
-/
import Thttpd.Core.Request
import Thttpd.Legacy.Libhttpd
import Thttpd.Lib.Climb
import Thttpd.Lib.Utf8
import Mathlib.Data.List.Infix

namespace Thttpd

open Text

/-! ### Substrings

`contains("//")` is a search, and here a statement about what is in the text.
-/

theorem containsStr_iff {needle s : Str} : containsStr needle s = true ↔ needle <:+: s := by
  unfold containsStr
  rw [List.any_eq_true]
  constructor
  · rintro ⟨t, ht, hpre⟩
    obtain ⟨u, hu⟩ := (List.mem_tails t s).mp ht
    obtain ⟨v, hv⟩ := List.isPrefixOf_iff_prefix.mp hpre
    exact ⟨u, v, by rw [List.append_assoc, hv, hu]⟩
  · rintro ⟨u, v, huv⟩
    refine ⟨needle ++ v, (List.mem_tails _ _).mpr ⟨u, by rw [← List.append_assoc, huv]⟩, ?_⟩
    exact List.isPrefixOf_iff_prefix.mpr (List.prefix_append _ _)

theorem containsStr_cons (needle : Str) (x : Char) (s : Str) :
    containsStr needle (x :: s) = (needle.isPrefixOf (x :: s) || containsStr needle s) := by
  unfold containsStr
  rw [List.tails_cons, List.any_cons]

/-- Two slashes are not found before the first slash. -/
theorem doubleSlash_append {c : Str} (hc : '/' ∉ c) (t : Str) :
    containsStr ['/', '/'] (c ++ t) = containsStr ['/', '/'] t := by
  induction c with
  | nil => rfl
  | cons x c ih =>
      have hx : '/' ≠ x := fun h => hc (h ▸ List.mem_cons_self)
      rw [List.cons_append, containsStr_cons, ih fun h => hc (List.mem_cons_of_mem x h)]
      simp [List.isPrefixOf, hx]

/-! ### Components

A path is split at its slashes.  An empty component and a dot are nothing, two dots
go back one name, and everything else is a name; the stack of the source is the list
of names read so far.
-/

/-- A component that is neither empty nor a dot segment. -/
def IsName (part : Str) : Prop := part ≠ [] ∧ part ≠ ['.'] ∧ part ≠ ['.', '.']

instance (part : Str) : Decidable (IsName part) := inferInstanceAs (Decidable (_ ∧ _))

/-- What a component does to the names before it. -/
def componentKind (part : Str) : Climb.Kind :=
  if part = [] ∨ part = ['.'] then .stay
  else if part = ['.', '.'] then .up
  else .down

theorem componentKind_eq_down {part : Str} : componentKind part = .down ↔ IsName part := by
  unfold componentKind IsName
  by_cases h : part = [] ∨ part = ['.']
  · rw [if_pos h]
    refine iff_of_false (by simp) ?_
    rintro ⟨h1, h2, -⟩
    exact h.elim h1 h2
  · by_cases hup : part = ['.', '.']
    · simp [hup]
    · rw [if_neg h, if_neg hup]
      push Not at h
      exact iff_of_true rfl ⟨h.1, h.2, hup⟩

theorem componentKind_eq_up {part : Str} : componentKind part = .up ↔ part = ['.', '.'] := by
  unfold componentKind
  by_cases h : part = [] ∨ part = ['.']
  · rw [if_pos h]
    refine iff_of_false (by simp) ?_
    rintro rfl
    simp at h
  · by_cases hup : part = ['.', '.']
    · simp [hup]
    · simp [h, hup]

/--
The stack of names is a walk: a component that goes back takes off a name, and where
there is none the walk has left the tree.
-/
theorem pushComponent_eq : pushComponent = Climb.step componentKind := by
  funext components part
  unfold pushComponent Climb.step componentKind
  congr 1
  funext cs
  by_cases h : part = [] ∨ part = ['.']
  · simp [h]
  · by_cases hup : part = ['.', '.']
    · simp [hup]
    · simp [h, hup]

theorem normalizePath_eq (p : Str) :
    normalizePath p = if containsStr ['/', '/'] p then none
      else (Climb.walkFrom componentKind [] (p.splitOn '/')).map joinComponents := by
  unfold normalizePath Climb.walkFrom
  rw [pushComponent_eq]

/-- The names a cleaned path is put together from. -/
def componentsOf (r : Str) : List Str := (r.splitOn '/').filter (· ≠ [])

section Joined

variable {cs : List Str}

theorem joinComponents_cons (c : Str) (cs : List Str) :
    joinComponents (c :: cs) = '/' :: c ++ (if cs = [] then [] else joinComponents cs) := by
  cases cs with
  | nil => simp [joinComponents]
  | cons d ds => simp [joinComponents, List.intercalate_cons_cons]

/-- Names joined with slashes are split into the same names. -/
theorem splitOn_joinComponents (hslash : ∀ c ∈ cs, '/' ∉ c) (hne : cs ≠ []) :
    (joinComponents cs).splitOn '/' = [] :: cs := by
  have hsplit := splitOn_cons_of_notMem (c := '/') (s := []) (by simp) (['/'].intercalate cs)
  rw [List.nil_append] at hsplit
  rw [joinComponents, hsplit, List.splitOn_intercalate '/' hslash hne]

theorem componentsOf_joinComponents (hslash : ∀ c ∈ cs, '/' ∉ c) (hname : ∀ c ∈ cs, c ≠ []) :
    componentsOf (joinComponents cs) = cs := by
  by_cases hne : cs = []
  · rw [hne]
    rfl
  · unfold componentsOf
    rw [splitOn_joinComponents hslash hne, List.filter_cons_of_neg (by simp), List.filter_eq_self]
    intro c hc
    simpa using hname c hc

/-- No slash follows another. -/
theorem joinComponents_noDoubleSlash (hslash : ∀ c ∈ cs, '/' ∉ c) (hname : ∀ c ∈ cs, c ≠ []) :
    containsStr ['/', '/'] (joinComponents cs) = false := by
  induction cs with
  | nil => decide
  | cons c cs ih =>
      have hrest : containsStr ['/', '/'] (if cs = [] then [] else joinComponents cs) = false := by
        by_cases hcs : cs = []
        · rw [if_pos hcs]
          decide
        · rw [if_neg hcs]
          exact ih (fun d hd => hslash d (by simp [hd])) fun d hd => hname d (by simp [hd])
      obtain ⟨x, c', hc⟩ := List.exists_cons_of_ne_nil (hname c (by simp))
      have hx : '/' ≠ x := fun h => hslash c (by simp) (by rw [hc, ← h]; exact List.mem_cons_self)
      have htail : containsStr ['/', '/'] (c ++ if cs = [] then [] else joinComponents cs) = false := by
        rw [doubleSlash_append (hslash c (by simp)), hrest]
      rw [joinComponents_cons, List.cons_append, containsStr_cons, htail, hc]
      simp [List.isPrefixOf, hx]

end Joined

/-! ### Cleaned paths

A cleaned path is a slash and the names with slashes between them, so the names can
be read back from it, and cleaning it again leaves them as they are.
-/

/--
What `normalize_path` makes of `p`: how it is spelled, that it has no dot segment,
which components of `p` it is put together from, and that cleaning it again changes
nothing.
-/
structure Cleaned (p r : Str) : Prop where
  slash : r.head? = some '/'
  /-- Only the root has an empty component after the slash. -/
  names : r = ['/'] ∨ ∀ c ∈ (r.drop 1).splitOn '/', IsName c
  /-- Each `..` is cancelled with the name before it. -/
  cancelled : Relation.ReflTransGen (Climb.Cancels componentKind) (p.splitOn '/') (componentsOf r)
  /-- In whatever order that is done. -/
  only : ∀ cs, Relation.ReflTransGen (Climb.Cancels componentKind) (p.splitOn '/') cs →
    (∀ c ∈ cs, IsName c) → cs = componentsOf r
  fixed : normalizePath r = some r

theorem normalizePath_joinComponents {cs : List Str} (hslash : ∀ c ∈ cs, '/' ∉ c)
    (hname : ∀ c ∈ cs, IsName c) : normalizePath (joinComponents cs) = some (joinComponents cs) := by
  have hdown : ∀ c ∈ cs, componentKind c = .down := fun c hc => componentKind_eq_down.mpr (hname c hc)
  have hnone := joinComponents_noDoubleSlash hslash fun c hc => (hname c hc).1
  rw [normalizePath_eq, hnone]
  by_cases hne : cs = []
  · rw [hne]
    rfl
  · rw [splitOn_joinComponents hslash hne, Climb.walkFrom_stay rfl, Climb.walkFrom_of_down hdown]
    rfl

/-- A component of a list of which some cancel is a component of it. -/
theorem mem_of_cancels {l l' : List Str}
    (h : Relation.ReflTransGen (Climb.Cancels componentKind) l l') {c : Str} (hc : c ∈ l') : c ∈ l := by
  induction h with
  | refl => exact hc
  | tail _ hstep ih =>
      refine ih ?_
      cases hstep with
      | stay a b hx =>
          rcases List.mem_append.mp hc with hc | hc
          · simp [hc]
          · simp [hc]
      | pair a b hx hu =>
          rcases List.mem_append.mp hc with hc | hc
          · simp [hc]
          · simp [hc]

theorem cleaned_of_normalizePath {p r : Str} (h : normalizePath p = some r) : Cleaned p r := by
  rw [normalizePath_eq] at h
  split at h
  · cases h
  obtain ⟨cs, hwalk, rfl⟩ := Option.map_eq_some_iff.mp h
  obtain ⟨hcancels, hdown⟩ := Climb.walkFrom_eq_some_iff.mp hwalk
  have hname : ∀ c ∈ cs, IsName c := fun c hc => componentKind_eq_down.mp (hdown c hc)
  have hslash : ∀ c ∈ cs, '/' ∉ c := fun c hc => notMem_of_mem_splitOn (mem_of_cancels hcancels hc)
  have hnames := componentsOf_joinComponents hslash fun c hc => (hname c hc).1
  refine ⟨rfl, ?_, ?_, ?_, normalizePath_joinComponents hslash hname⟩
  · by_cases hne : cs = []
    · left
      rw [hne]
      rfl
    · right
      show ∀ c ∈ (['/'].intercalate cs).splitOn '/', IsName c
      rw [List.splitOn_intercalate '/' hslash hne]
      exact hname
  · rw [hnames]
    exact hcancels
  · intro cs' hcancels' hname'
    have hwalk' : Climb.walkFrom componentKind [] (p.splitOn '/') = some cs' :=
      Climb.walkFrom_eq_some_iff.mpr
        ⟨hcancels', fun c hc => componentKind_eq_down.mpr (hname' c hc)⟩
    rw [hnames]
    exact Option.some.inj (hwalk'.symm.trans hwalk)

/-- A path goes down by its names and up by its `..`. -/
theorem downs_eq (parts : List Str) : Climb.downs componentKind parts = parts.countP IsName :=
  List.countP_congr fun part _ => by simp [componentKind_eq_down]

theorem ups_eq (parts : List Str) : Climb.ups componentKind parts = parts.count ['.', '.'] :=
  List.countP_congr fun part _ => by simp [componentKind_eq_up]

/-- A path is refused for two slashes in a row, or where it climbs above the root. -/
theorem normalizePath_eq_none_iff {p : Str} :
    normalizePath p = none ↔ ['/', '/'] <:+: p ∨
      ∃ parts, parts <+: p.splitOn '/' ∧ parts.countP IsName < parts.count ['.', '.'] := by
  rw [normalizePath_eq, ← containsStr_iff]
  by_cases hdouble : containsStr ['/', '/'] p = true
  · simp [hdouble]
  · rw [if_neg hdouble, Option.map_eq_none_iff, Climb.walkFrom_eq_none_iff]
    simp [downs_eq, ups_eq, hdouble]

/--
**Path normalization is exact**, for every string.

Both are about the components of the path: what makes it fail, and what is left of
it.
-/
theorem normalize_path_exact (p : Str) :
    (normalizePath p = none ↔ ['/', '/'] <:+: p ∨
      ∃ parts, parts <+: p.splitOn '/' ∧ parts.countP IsName < parts.count ['.', '.']) ∧
    ∀ r, normalizePath p = some r → Cleaned p r :=
  ⟨normalizePath_eq_none_iff, fun _ h => cleaned_of_normalizePath h⟩

/-- `/a/./b/../c/` is cleaned to `/a/c`. -/
theorem normalize_path_exact_nested :
    Cleaned "/a/./b/../c/".toList "/a/c".toList :=
  (normalize_path_exact "/a/./b/../c/".toList).2 "/a/c".toList (by decide)

/-! ### Decoding

The query is split off after decoding, and `+` is read as a space.  Where neither shows,
the parts of a URL are those of the legacy server. -/

open Legacy in
theorem fromHex_eq (b : UInt8) : fromHex b = if isxdigit b then some (hexit b) else none := by
  unfold fromHex isxdigit hexit
  by_cases h₁ : (48 ≤ b && b ≤ 57) = true
  · simp [h₁]
  · by_cases h₂ : (97 ≤ b && b ≤ 102) = true
    · simp [h₁, h₂]
    · by_cases h₃ : (65 ≤ b && b ≤ 70) = true
      · simp [h₁, h₂, h₃]
      · simp [h₁, h₂, h₃]

/-- The byte `+` becomes a space. -/
def plusToSpace (b : UInt8) : UInt8 := if b = 43 then 32 else b

theorem isxdigit_plusToSpace (b : UInt8) : Legacy.isxdigit (plusToSpace b) = Legacy.isxdigit b := by
  unfold plusToSpace
  by_cases h : b = 43
  · rw [if_pos h, h]
    decide
  · rw [if_neg h]

theorem plusToSpace_of_xdigit {b : UInt8} (h : Legacy.isxdigit b = true) : plusToSpace b = b := by
  unfold plusToSpace
  rw [if_neg]
  rintro rfl
  exact absurd h (by decide)

theorem plusToSpace_eq_percent {b : UInt8} : plusToSpace b = 37 ↔ b = 37 := by
  unfold plusToSpace
  by_cases h : b = 43
  · simp [h]
  · rw [if_neg h]

/-- An escape at the head of some bytes. -/
theorem escapedByte_eq (x y : UInt8) (bs : Bytes) :
    escapedByte (x :: y :: bs) =
      if Legacy.isxdigit x ∧ Legacy.isxdigit y then some (Legacy.hexit x * 16 + Legacy.hexit y)
      else none := by
  simp only [escapedByte, fromHex_eq]
  by_cases hx : Legacy.isxdigit x = true
  · by_cases hy : Legacy.isxdigit y = true
    · simp [hx, hy]
    · simp [hx, hy]
  · simp [hx]

/-- A byte that begins no escape is copied, unless it is a `+`. -/
theorem percentDecodeFrom_copies {c : UInt8} {bs : Bytes} (h : c = 37 → escapedByte bs = none) :
    percentDecodeFrom 0 (c :: bs) = plusToSpace c :: percentDecodeFrom 0 bs := by
  rw [percentDecodeFrom]
  unfold plusToSpace
  by_cases hc : c = 37
  · simp [h hc, hc]
  · by_cases hplus : c = 43
    · simp [hplus]
    · simp [hc, hplus]

/--
**The decoder is that of the legacy server, with `+` read as a space.**

Turning every `+` into a space first makes the two the same function, since no
escape holds a plus sign.
-/
theorem percentDecodeFrom_eq (bs : Bytes) :
    percentDecodeFrom 0 bs = Legacy.strdecode (bs.map plusToSpace) := by
  induction bs using Legacy.strdecode.induct with
  | case1 => rfl
  | case2 c x y bs h ih =>
      obtain ⟨rfl, hx, hy⟩ := h
      have hescape : escapedByte (x :: y :: bs) = some (Legacy.hexit x * 16 + Legacy.hexit y) := by
        rw [escapedByte_eq, if_pos ⟨hx, hy⟩]
      have hread : percentDecodeFrom 0 (37 :: x :: y :: bs) =
          (Legacy.hexit x * 16 + Legacy.hexit y) :: percentDecodeFrom 0 bs := by
        rw [percentDecodeFrom]
        simp only [beq_self_eq_true, if_true, hescape]
        rfl
      have h37 : plusToSpace 37 = 37 := rfl
      rw [hread, ih, List.map_cons, List.map_cons, List.map_cons, Legacy.strdecode, h37,
        plusToSpace_of_xdigit hx, plusToSpace_of_xdigit hy, if_pos ⟨rfl, hx, hy⟩]
  | case3 c x y bs h ih =>
      have hnone : c = 37 → escapedByte (x :: y :: bs) = none := by
        intro hc
        rw [escapedByte_eq, if_neg fun hxy => h ⟨hc, hxy⟩]
      have hplain : ¬ (plusToSpace c = 37 ∧ Legacy.isxdigit (plusToSpace x) ∧
          Legacy.isxdigit (plusToSpace y)) := by
        rw [plusToSpace_eq_percent, isxdigit_plusToSpace, isxdigit_plusToSpace]
        exact h
      have hcopied : Legacy.strdecode ((c :: x :: y :: bs).map plusToSpace) =
          plusToSpace c :: Legacy.strdecode ((x :: y :: bs).map plusToSpace) := by
        show Legacy.strdecode (plusToSpace c :: plusToSpace x :: plusToSpace y :: _) = _
        rw [Legacy.strdecode, if_neg hplain]
        rfl
      rw [percentDecodeFrom_copies hnone, ih, hcopied]
  | case4 c bs hshort ih =>
      have hnone : escapedByte bs = none := by
        match bs, hshort with
        | [], _ => rfl
        | [_], _ => rfl
        | x :: y :: bs, hshort => exact absurd rfl (hshort x y bs)
      rw [percentDecodeFrom_copies fun _ => hnone, ih]
      match bs, hshort with
      | [], _ => rfl
      | [_], _ => rfl
      | x :: y :: bs, hshort => exact absurd rfl (hshort x y bs)

/-- A complete escape in some bytes, that stands for `v`. -/
def Escapes (v : UInt8) (bs : Bytes) : Prop :=
  ∃ a x y b, bs = a ++ 37 :: x :: y :: b ∧ Legacy.isxdigit x = true ∧ Legacy.isxdigit y = true ∧
    Legacy.hexit x * 16 + Legacy.hexit y = v

theorem Escapes.cons {v : UInt8} {bs : Bytes} (h : Escapes v bs) (c : UInt8) : Escapes v (c :: bs) := by
  obtain ⟨a, x, y, b, rfl, hx, hy, hv⟩ := h
  exact ⟨c :: a, x, y, b, rfl, hx, hy, hv⟩

/-- A decoded byte was there, or an escape stood for it. -/
theorem mem_strdecode {v : UInt8} {bs : Bytes} (h : v ∈ Legacy.strdecode bs) : v ∈ bs ∨ Escapes v bs := by
  have hcons : ∀ {c : UInt8} {bs : Bytes}, v ∈ bs ∨ Escapes v bs → v ∈ c :: bs ∨ Escapes v (c :: bs) := by
    intro c bs h
    exact h.imp (List.mem_cons_of_mem c) fun h => h.cons c
  induction bs using Legacy.strdecode.induct with
  | case1 => cases h
  | case2 c x y bs hesc ih =>
      rw [Legacy.strdecode, if_pos hesc] at h
      rcases List.mem_cons.mp h with rfl | h
      · right
        exact ⟨[], x, y, bs, by rw [hesc.1]; rfl, hesc.2.1, hesc.2.2, rfl⟩
      · exact hcons (hcons (hcons (ih h)))
  | case3 c x y bs hesc ih =>
      rw [Legacy.strdecode, if_neg hesc] at h
      rcases List.mem_cons.mp h with rfl | h
      · exact .inl List.mem_cons_self
      · exact hcons (ih h)
  | case4 c bs hshort ih =>
      have hcopied : Legacy.strdecode (c :: bs) = c :: Legacy.strdecode bs := by
        match bs, hshort with
        | [], _ => rfl
        | [_], _ => rfl
        | x :: y :: bs, hshort => exact absurd rfl (hshort x y bs)
      rw [hcopied] at h
      rcases List.mem_cons.mp h with rfl | h
      · exact .inl List.mem_cons_self
      · exact hcons (ih h)

/-- Bytes without an escape are copied. -/
theorem strdecode_of_noEscape {bs : Bytes} (h : ∀ v, ¬ Escapes v bs) : Legacy.strdecode bs = bs := by
  induction bs using Legacy.strdecode.induct with
  | case1 => rfl
  | case2 c x y bs hesc ih =>
      refine absurd ?_ (h (Legacy.hexit x * 16 + Legacy.hexit y))
      exact ⟨[], x, y, bs, by rw [hesc.1]; rfl, hesc.2.1, hesc.2.2, rfl⟩
  | case3 c x y bs hesc ih =>
      rw [Legacy.strdecode, if_neg hesc, ih fun v hv => h v (hv.cons c)]
  | case4 c bs hshort ih =>
      have hrest := ih fun v hv => h v (hv.cons c)
      match bs, hshort with
      | [], _ => rfl
      | [_], _ => rfl
      | x :: y :: bs, hshort => exact absurd rfl (hshort x y bs)

theorem Escapes.of_map {v : UInt8} {bs : Bytes} (h : Escapes v (bs.map plusToSpace)) : Escapes v bs := by
  obtain ⟨a, x, y, b, heq, hx, hy, hv⟩ := h
  obtain ⟨a', rest, rfl, -, h₁⟩ := List.map_eq_append_iff.mp heq
  obtain ⟨c, rest₁, rfl, hc, h₂⟩ := List.map_eq_cons_iff.mp h₁
  obtain ⟨x', rest₂, rfl, rfl, h₃⟩ := List.map_eq_cons_iff.mp h₂
  obtain ⟨y', b', rfl, rfl, -⟩ := List.map_eq_cons_iff.mp h₃
  rw [isxdigit_plusToSpace] at hx hy
  rw [plusToSpace_of_xdigit hx, plusToSpace_of_xdigit hy] at hv
  exact ⟨a', x', y', b', by rw [plusToSpace_eq_percent.mp hc], hx, hy, hv⟩

/-- No escape goes on across a question mark. -/
theorem strdecode_cut (a b : Bytes) :
    Legacy.strdecode (a ++ 63 :: b) = Legacy.strdecode a ++ 63 :: Legacy.strdecode b := by
  have hmark : ∀ b : Bytes, Legacy.strdecode (63 :: b) = 63 :: Legacy.strdecode b := by
    intro b
    match b with
    | [] => rfl
    | [_] => rfl
    | x :: y :: b =>
        rw [Legacy.strdecode, if_neg]
        rintro ⟨h, -⟩
        exact absurd h (by decide)
  induction a using Legacy.strdecode.induct with
  | case1 => exact hmark b
  | case2 c x y a hesc ih =>
      rw [List.cons_append, List.cons_append, List.cons_append, Legacy.strdecode, if_pos hesc, ih,
        Legacy.strdecode, if_pos hesc, List.cons_append]
  | case3 c x y a hesc ih =>
      rw [Legacy.strdecode, if_neg hesc]
      show Legacy.strdecode (c :: x :: y :: (a ++ 63 :: b)) = c :: (_ ++ _)
      rw [← ih, Legacy.strdecode, if_neg hesc]
      rfl
  | case4 c a hshort ih =>
      have hno : Legacy.isxdigit 63 = false := by decide
      match a, hshort with
      | [], _ =>
          match b with
          | [] => rfl
          | x :: b =>
              show Legacy.strdecode (c :: 63 :: x :: b) = _
              rw [Legacy.strdecode, if_neg (by simp [hno]), hmark]
              rfl
      | [x], _ =>
          show Legacy.strdecode (c :: x :: 63 :: b) = _
          rw [Legacy.strdecode, if_neg (by simp [hno])]
          show c :: Legacy.strdecode ([x] ++ 63 :: b) = _
          rw [ih]
          rfl
      | x :: y :: a, hshort => exact absurd rfl (hshort x y a)

/-! ### The legacy text

The legacy server takes the URL apart while it is still encoded.  Decoding commutes
with that cut as long as no escape stands for a question mark in front of it.
-/

/-- The text the legacy server reads out of an encoded one, with `+` as a space. -/
def decodedText (s : Str) : Str := fromUtf8Lossy (Legacy.strdecode ((asBytes s).map plusToSpace))

theorem percentDecode_eq (s : Str) : percentDecode s = decodedText s := by
  unfold percentDecode decodedText
  rw [percentDecodeFrom_eq]

theorem decodedText_cut (a b : Str) :
    decodedText (a ++ '?' :: b) = decodedText a ++ '?' :: decodedText b := by
  have hbytes : asBytes (a ++ '?' :: b) = asBytes a ++ 63 :: asBytes b := by
    rw [asBytes_append]
    rfl
  have hmark : plusToSpace 63 = 63 := rfl
  unfold decodedText
  rw [hbytes, List.map_append, List.map_cons, hmark, strdecode_cut, fromUtf8Lossy_append (by decide)]
  rfl

/-- A question mark in decoded text was one, or an escape stood for it. -/
theorem mark_notMem_decodedText {s : Str} (hmark : '?' ∉ s) (hesc : ¬ Escapes 63 (asBytes s)) :
    '?' ∉ decodedText s := by
  refine notMem_fromUtf8Lossy (b := 63) (by decide) (by decide) ?_
  intro hmem
  rcases mem_strdecode hmem with hmem | hmem
  · obtain ⟨b, hb, hb63⟩ := List.mem_map.mp hmem
    have hbyte : b = 63 := by
      by_cases hplus : b = 43
      · rw [hplus] at hb63
        exact absurd hb63 (by decide)
      · rw [plusToSpace, if_neg hplus] at hb63
        exact hb63
    rw [hbyte] at hb
    exact hmark (byteChar_mem_of_asBytes (by decide) hb)
  · exact hesc hmem.of_map

/-- Text without `+` and without an escape is decoded to itself. -/
theorem decodedText_plain {s : Str} (hplus : '+' ∉ s) (hesc : ∀ v, ¬ Escapes v (asBytes s)) :
    decodedText s = s := by
  have hmap : (asBytes s).map plusToSpace = asBytes s := by
    refine (List.map_congr_left ?_).trans (List.map_id _)
    intro b hb
    rw [plusToSpace, if_neg]
    · rfl
    · rintro rfl
      exact hplus (byteChar_mem_of_asBytes (by decide) hb)
  have hback := fromUtf8Lossy_asBytes s []
  rw [fromUtf8Lossy_nil, List.append_nil, List.append_nil] at hback
  unfold decodedText
  rw [hmap, strdecode_of_noEscape hesc, hback]

/-- The path and the query are the parts of the decoded URL. -/
theorem readRequestLine_split (pf : Platform) (http : HttpConn) :
    let decoded := decodedText (readRequestLine pf http).encodedUrl
    (∀ path query, splitOnce '?' decoded = some (path, query) →
      (readRequestLine pf http).decodedUrl = path ∧ (readRequestLine pf http).query = query) ∧
    (splitOnce '?' decoded = none →
      (readRequestLine pf http).decodedUrl = decoded ∧ (readRequestLine pf http).query = http.query) := by
  intro decoded
  have hdecoded : decoded = percentDecode (readRequestLine pf http).encodedUrl :=
    (percentDecode_eq _).symm
  constructor
  · intro path query h
    rw [hdecoded] at h
    unfold readRequestLine at h ⊢
    simp only at h ⊢
    rw [h]
    exact ⟨rfl, rfl⟩
  · intro h
    rw [hdecoded] at h ⊢
    unfold readRequestLine at h ⊢
    simp only at h ⊢
    rw [h]
    exact ⟨rfl, rfl⟩

/--
**A URL is split as the legacy server splits it**, with `+` read as a space in the
path, where no escape stands for a question mark before the query and nothing in the
query is encoded.

The legacy server cuts before it decodes and this one after, so the assumptions are
about escapes: none for a question mark in the path, and none at all in the query.
-/
theorem url_split_as_legacy (pf : Platform) (buf : Bytes) (checkedIdx : Nat) (state : ParseState)
    {path : Str} (hmark : '?' ∉ path) (hesc : ¬ Escapes 63 (asBytes path)) :
    let http := readRequestLine pf (.received buf checkedIdx state)
    (http.encodedUrl = path → http.query = [] ∧ http.decodedUrl = decodedText path) ∧
    ∀ query, http.encodedUrl = path ++ '?' :: query →
      http.decodedUrl = decodedText path ∧
      ('+' ∉ query → (∀ v, ¬ Escapes v (asBytes query)) → http.query = query) := by
  intro http
  have hnone := mark_notMem_decodedText hmark hesc
  obtain ⟨hsplit, hwhole⟩ := readRequestLine_split pf (.received buf checkedIdx state)
  constructor
  · intro hurl
    have hno : splitOnce '?' (decodedText http.encodedUrl) = none := by
      rw [hurl]
      exact splitOnce_eq_none hnone
    obtain ⟨hdecoded, hquery⟩ := hwhole hno
    exact ⟨hquery, hdecoded.trans (by rw [hurl])⟩
  · intro query hurl
    have hparts : splitOnce '?' (decodedText http.encodedUrl) =
        some (decodedText path, decodedText query) := by
      rw [hurl, decodedText_cut]
      exact splitOnce_append hnone _
    obtain ⟨hdecoded, hquery⟩ := hsplit _ _ hparts
    refine ⟨hdecoded, ?_⟩
    intro hplus hplain
    rw [← decodedText_plain hplus hplain]
    exact hquery

/-- The connection of a request line. -/
def urlRequest (line : String) : HttpConn :=
  readRequestLine .epoch (.received (asBytes line.toList) (asBytes line.toList).length .firstWord)

/-- `/a+b?c=d` is split, and its `+` read as a space. -/
theorem url_split_as_legacy_form :
    (urlRequest "GET /a+b?c=d HTTP/1.0\r\n\r\n").decodedUrl = decodedText "/a+b".toList ∧
      decodedText "/a+b".toList = "/a b".toList ∧
      (urlRequest "GET /a+b?c=d HTTP/1.0\r\n\r\n").query = "c=d".toList := by
  have hurl : (urlRequest "GET /a+b?c=d HTTP/1.0\r\n\r\n").encodedUrl =
      "/a+b".toList ++ '?' :: "c=d".toList := by decide +kernel
  have hpercent : ∀ {v : UInt8} {bs : Bytes}, (37 : UInt8) ∉ bs → ¬ Escapes v bs := by
    rintro v bs hno ⟨a, x, y, b, rfl, -⟩
    exact hno (by simp)
  have hmark : '?' ∉ "/a+b".toList := by decide
  obtain ⟨hpath, hquery⟩ := (url_split_as_legacy .epoch _ _ _ hmark (hpercent (by decide))).2 _ hurl
  exact ⟨hpath, by decide, hquery (by decide) fun v => hpercent (by decide)⟩

/--
**A literal `+` of the path is not copied, an escaped question mark ends the path,
and the query is decoded.**
-/
theorem url_split_differs :
    (urlRequest "GET /a+b?c=%41 HTTP/1.0\r\n\r\n").encodedUrl = "/a+b".toList ++ '?' :: "c=%41".toList ∧
      (urlRequest "GET /a+b?c=%41 HTTP/1.0\r\n\r\n").decodedUrl ≠
          fromUtf8Lossy (Legacy.strdecode (asBytes "/a+b".toList)) ∧
      (urlRequest "GET /a+b?c=%41 HTTP/1.0\r\n\r\n").query = "c=A".toList ∧
      (urlRequest "GET /a%3Fb HTTP/1.0\r\n\r\n").query = "b".toList := by
  refine ⟨by decide +kernel, by decide +kernel, by decide +kernel, by decide +kernel⟩

end Thttpd
