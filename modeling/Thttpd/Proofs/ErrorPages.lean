/-
No markup gets into an error page.

The argument of a page is defanged and then cut at 80 bytes.  What is left of it holds no
angle bracket, wherever the cut falls, so the brackets of a page are those of the server's
own texts.

The order of the two matters only for what is shown, and not for markup: a cut
through an entity leaves a piece of it, which holds no bracket either.
-/
import Thttpd.Http.ErrorPage
import Thttpd.Proofs.Url

namespace Thttpd

open Text

/-! ### The cut

The source goes back from byte 80 to a boundary between characters, so it cuts the
characters that fit.
-/

/-- Going back stops at the last boundary. -/
theorem floorBoundaryFrom_spec (s : Str) (index : Nat) :
    ∃ j ≤ index, floorBoundaryFrom s index = some j ∧ isCharBoundary s j = true ∧
      ∀ k, j < k → k ≤ index → isCharBoundary s k = false := by
  induction index with
  | zero => exact ⟨0, Nat.le_refl 0, rfl, rfl, fun k hlt hle => absurd hlt (by omega)⟩
  | succ index ih =>
      rw [floorBoundaryFrom]
      by_cases hb : isCharBoundary s (index + 1) = true
      · exact ⟨index + 1, Nat.le_refl _, if_pos hb, hb, fun k hlt hle => absurd hlt (by omega)⟩
      · obtain ⟨j, hle, hj, hbound, hnone⟩ := ih
        refine ⟨j, Nat.le_succ_of_le hle, by rw [if_neg hb, hj], hbound, fun k hlt hk => ?_⟩
        rcases Nat.lt_or_eq_of_le hk with hk | rfl
        · exact hnone k hlt (Nat.le_of_lt_succ hk)
        · simpa using hb

/-- The cut falls behind the characters within the bytes. -/
theorem floorCharBoundary_eq (s : Str) (index : Nat) :
    floorCharBoundary s index = some (asBytes (takeBytes index s)).length := by
  rw [floorCharBoundary, byteLen_eq]
  split
  · rename_i hle
    rw [takeBytes_eq_self hle]
  · obtain ⟨j, hle, hj, hbound, hnone⟩ := floorBoundaryFrom_spec s index
    obtain ⟨a, b, rfl, rfl⟩ := isCharBoundary_iff.mp hbound
    have hlong := takeBytes_longest (b := b) hle
    obtain ⟨t, ht⟩ := prefix_takeBytes index (a ++ b)
    have htaken : isCharBoundary (a ++ b) (asBytes (takeBytes index (a ++ b))).length = true :=
      isCharBoundary_iff.mpr ⟨_, t, ht.symm, rfl⟩
    rcases Nat.lt_or_eq_of_le hlong with hlt | heq
    · rw [hnone _ hlt (takeBytes_length_le index _)] at htaken
      cases htaken
    · rw [hj, heq]

/--
**The cut is never within a character.**

The index that the source cuts at is moved back to the edge of a character first,
and 80 bytes hold an edge, so the slice does not panic.
-/
theorem truncated_eq (s : Str) : truncated s = some (takeBytes 80 s) := by
  rw [truncated, byteLen_eq]
  split
  · obtain ⟨t, ht⟩ := prefix_takeBytes 80 s
    have hslice := strTo_append (takeBytes 80 s) t
    rw [ht] at hslice
    rw [floorCharBoundary_eq, Option.bind_some, hslice]
  · rename_i hle
    rw [takeBytes_eq_self (Nat.le_of_not_lt hle)]

/-- The page around what is left of the argument. -/
theorem errorPage_eq (status : Nat) (title form arg : Str) (userAgent : Option Str) :
    errorPage status title form arg userAgent = pageAround status title userAgent
      (if containsStr placeholder form then replace placeholder (takeBytes 80 (defang arg)) form
        else form) := by
  cases userAgent with
  | none =>
      have hno : saysMsie none = false := rfl
      unfold errorPage pageAround
      simp only [hno, Bool.false_eq_true, if_false]
  | some ua =>
      have hua : saysMsie (some ua) = containsStr "MSIE".toList ua := rfl
      unfold errorPage pageAround
      simp only [hua]

/-- So the page is the one that is made of the characters. -/
theorem slicedErrorPage_eq (status : Nat) (title form arg : Str) (userAgent : Option Str) :
    slicedErrorPage status title form arg userAgent = some (errorPage status title form arg userAgent) := by
  rw [errorPage_eq]
  simp only [slicedErrorPage, truncated_eq, Option.map_some]
  by_cases hform : containsStr placeholder form = true
  · rw [if_pos hform, if_pos hform, Option.map_some]
  · rw [if_neg hform, if_neg hform, Option.map_some]

/-! ### Angle brackets

Two pages with the same brackets have the same markup, as there is no other way to
begin a tag.
-/

/-- An angle bracket. -/
def isAngle (c : Char) : Bool := c == '<' || c == '>'

/-- The angle brackets of a page, in order. -/
def angles (page : Bytes) : Bytes := page.filter fun b => b == 0x3C || b == 0x3E

/-- They are counted in bytes or in characters alike. -/
theorem angles_asBytes (s : Str) : angles (asBytes s) = asBytes (s.filter isAngle) :=
  ((SameClass.char (d := '<') (by decide)).or (SameClass.char (d := '>') (by decide))).filter s

/-- Nothing defanged holds one. -/
theorem defang_plain (s : Str) : ∀ c ∈ defang s, isAngle c = false := by
  intro c hc
  obtain ⟨d, -, hc⟩ := List.mem_flatMap.mp hc
  have hlt : "&lt;".toList.all (fun c => !isAngle c) = true := by decide
  have hgt : "&gt;".toList.all (fun c => !isAngle c) = true := by decide
  unfold defangChar at hc
  split at hc
  · simpa using List.all_eq_true.mp hlt c hc
  split at hc
  · simpa using List.all_eq_true.mp hgt c hc
  · rename_i hne hne'
    rw [List.mem_singleton.mp hc]
    simp [isAngle, hne, hne']

theorem filter_takeBytes_defang (n : Nat) (s : Str) : (takeBytes n (defang s)).filter isAngle = [] := by
  refine List.filter_eq_nil_iff.mpr fun c hc => ?_
  rw [defang_plain s c ((prefix_takeBytes n _).subset hc)]
  exact Bool.false_ne_true

/-- What is put in for the needle matters only as far as it passes the filter. -/
theorem filter_replace {p : Char → Bool} {new new' : Str} (h : new.filter p = new'.filter p)
    (needle s : Str) : (replace needle new s).filter p = (replace needle new' s).filter p := by
  induction hn : s.length using Nat.strong_induction_on generalizing s with
  | _ n ih =>
      cases s with
      | nil => rfl
      | cons c s =>
          subst hn
          rw [replace_cons, replace_cons]
          split
          · rw [List.filter_append, List.filter_append, h,
              ih _ (by rw [List.length_drop, List.length_cons]; omega) _ rfl]
          · rw [List.filter_cons, List.filter_cons, ih s.length (by simp) s rfl]

theorem replace_of_not_contains {needle s : Str} (h : containsStr needle s = false) (new : Str) :
    replace needle new s = s := by
  induction s with
  | nil => rfl
  | cons c s ih =>
      rw [containsStr_cons, Bool.or_eq_false_iff] at h
      rw [replace_cons, if_neg (by simp [h.1]), ih h.2]

theorem angles_pageAround (status : Nat) (title message message' : Str) {ua ua' : Option Str}
    (hua : saysMsie ua = saysMsie ua') (h : message.filter isAngle = message'.filter isAngle) :
    angles (pageAround status title ua message) = angles (pageAround status title ua' message') := by
  simp only [pageAround, angles_asBytes, List.filter_append, h, hua]

/--
**Error pages cannot be injected into.**

What a client can choose is replaced character by character before it is put in, so
the angle brackets of a page are those of its form, whatever was put in.  The
comparison is of two pages with arbitrary arguments.
-/
theorem errorPage_markup (status : Nat) (title form arg arg' : Str) (ua ua' : Option Str)
    (hua : saysMsie ua = saysMsie ua') :
    ∃ inserted inserted',
      truncated (defang arg) = some inserted ∧ truncated (defang arg') = some inserted' ∧
      (inserted <+: defang arg ∧ (asBytes inserted).length ≤ 80 ∧
        isCharBoundary (defang arg) (asBytes inserted).length = true) ∧
      slicedErrorPage status title form arg ua =
        some (pageAround status title ua (replace placeholder inserted form)) ∧
      slicedErrorPage status title form arg' ua' =
        some (pageAround status title ua' (replace placeholder inserted' form)) ∧
      angles (pageAround status title ua (replace placeholder inserted form)) =
        angles (pageAround status title ua' (replace placeholder inserted' form)) := by
  have hpage : ∀ (arg : Str) (ua : Option Str), slicedErrorPage status title form arg ua =
      some (pageAround status title ua (replace placeholder (takeBytes 80 (defang arg)) form)) := by
    intro arg ua
    rw [slicedErrorPage_eq, errorPage_eq]
    by_cases hform : containsStr placeholder form = true
    · rw [if_pos hform]
    · rw [if_neg hform, replace_of_not_contains (by simpa using hform)]
  refine ⟨_, _, truncated_eq _, truncated_eq _, ⟨prefix_takeBytes _ _, takeBytes_length_le _ _, ?_⟩,
    hpage arg ua, hpage arg' ua', ?_⟩
  · obtain ⟨t, ht⟩ := prefix_takeBytes 80 (defang arg)
    exact isCharBoundary_iff.mpr ⟨_, t, ht.symm, rfl⟩
  · refine angles_pageAround status title _ _ hua (filter_replace ?_ placeholder form)
    rw [filter_takeBytes_defang, filter_takeBytes_defang]

theorem errorPage_markup_script :
    ∃ page page',
      slicedErrorPage 404 "Not Found".toList "The requested URL '%.80s' was not found.\n".toList
        "/<script>".toList none = some page ∧
      slicedErrorPage 404 "Not Found".toList "The requested URL '%.80s' was not found.\n".toList
        "/".toList (some "curl".toList) = some page' ∧
      angles page = angles page' := by
  obtain ⟨_, _, -, -, -, hpage, hpage', heq⟩ := errorPage_markup 404 "Not Found".toList
    "The requested URL '%.80s' was not found.\n".toList "/<script>".toList "/".toList none
    (some "curl".toList) (by decide)
  exact ⟨_, _, hpage, hpage', heq⟩

end Thttpd
