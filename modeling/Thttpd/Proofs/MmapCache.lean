/-
What the cache of mapped files keeps.

A mapping stays under the key of the file it was made from until a cleanup finds that
nobody holds it and that it was not used for the expiry age.  So as long as a key that
was seen before comes with the content it had, a handle has the content of its file.

The expiry age changes from one cleanup to the next, so the statement is about each
call: what a cleanup drops is said in terms of the age and the time it runs with,
and what it keeps stays until the next one.
-/
import Thttpd.Proofs.MmapAge

namespace Thttpd

open Text

namespace Mappings

/-! ### Looking up

The cache is a list of entries with a key each.  What `map` does is told from the
entry of the key it computes: it fails, finds one, or makes one.
-/

/-- The entry of a key. -/
def entry (s : Mappings) (key : FileKey) : Option CacheEntry := s.cache.entries.get? key

/-- The key that the file at a path has. -/
def keyOf (fs : FileTable) (path : Str) : Option FileKey := (fs path).bind OpenFile.metadata

variable {s : Mappings} {fs : FileTable} {path : Str} {now : Nat} {key : FileKey} {e : CacheEntry}

/-- Mapping fails and changes nothing, finds an entry and marks it as used, or makes one. -/
theorem map_cases (s : Mappings) (fs : FileTable) (path : Str) (now : Nat) :
    ((s.map fs path now).1 = s ∧ (∃ err, (s.map fs path now).2 = .error err) ∧
        ∀ key, keyOf fs path = some key → s.entry key = none) ∨
    ∃ file key, fs path = some file ∧ file.metadata = some key ∧ ∃ e : CacheEntry,
      e.lastUsed = now ∧ (s.map fs path now).2 = .ok e.mmap ∧
      (∀ k, (s.map fs path now).1.entry k = if k = key then some e else s.entry k) ∧
      ((∃ old, s.entry key = some old ∧ e.mmap = old.mmap) ∨
        s.entry key = none ∧ e.mmap.content = file.content) := by
  unfold map keyOf entry
  cases hfile : fs path with
  | none => exact .inl ⟨rfl, ⟨_, rfl⟩, fun key hkey => by cases hkey⟩
  | some file =>
      dsimp only
      rw [Option.bind_some]
      cases hmeta : file.metadata with
      | none => exact .inl ⟨rfl, ⟨_, rfl⟩, fun key hkey => by cases hkey⟩
      | some key =>
          dsimp only
          cases hentry : s.cache.entries.get? key with
          | some old =>
              refine .inr ⟨file, key, rfl, hmeta, { old with lastUsed := now }, rfl, rfl, fun k => ?_,
                .inl ⟨old, hentry, rfl⟩⟩
              show (s.cache.entries.modify key _).get? k = _
              rw [Assoc.get?_modify]
              split
              · rename_i hk
                rw [hk, hentry]
                rfl
              · rfl
          | none =>
              have hnot := Assoc.get?_eq_none_iff.mp hentry
              by_cases hmap : file.mappable = true
              · dsimp only
                rw [if_pos hmap]
                exact .inr ⟨file, key, rfl, hmeta, ⟨⟨s.nextId, file.content⟩, now, key.size⟩, rfl, rfl,
                  Assoc.get?_insert_of_not_mem _ hnot, .inr ⟨hentry, rfl⟩⟩
              · dsimp only
                rw [if_neg hmap]
                refine .inl ⟨rfl, ⟨_, rfl⟩, fun k hk => ?_⟩
                cases hk
                exact hentry

theorem entry_cleanup : (s.cleanup now).entry key = some e ↔ s.entry key = some e ∧ s.keeps now e = true :=
  Assoc.get?_part_iff

/-- A mapping has no owner but the cache if nobody holds it. -/
theorem keeps_iff :
    s.keeps now e = true ↔
      (∃ h ∈ s.handles, h.id = e.mmap.id) ∨ now - e.lastUsed < s.cache.expireAge := by
  unfold keeps strongCount
  rw [Bool.or_eq_true, decide_eq_true_eq, decide_eq_true_eq]
  have hcount : 1 < 1 + s.handles.countP (·.id = e.mmap.id) ↔ ∃ h ∈ s.handles, h.id = e.mmap.id := by
    rw [Nat.lt_add_right_iff_pos, List.countP_pos_iff]
    simp
  rw [hcount]

/-! ### Runs

A run is a list of calls, and what has been seen in it is a property of that list.
The invariant says of every entry where its content comes from and when it was last
used.
-/

/-- When the file of a key was last mapped. -/
def lastUse (key : FileKey) (ops : List Op) : Option Nat :=
  ops.foldl
    (fun last op => match op with
      | .map fs path now => if keyOf fs path = some key then some now else last
      | _ => last)
    none

/-- A file with this key and this content was mapped. -/
def Seen (ops : List Op) (key : FileKey) (content : Bytes) : Prop :=
  ∃ fs path now file, Op.map fs path now ∈ ops ∧ fs path = some file ∧ file.metadata = some key ∧
    file.content = content

/--
Whenever the content of a file changes, its key becomes one that was not used
before: a key that is seen again comes with the same content.
-/
def KeysKeepContent (ops : List Op) : Prop :=
  ∀ key content content', Seen ops key content → Seen ops key content' → content = content'

theorem Seen.mono {ops ops' : List Op} {content : Bytes} (h : Seen ops key content)
    (hops : ops ⊆ ops') : Seen ops' key content := by
  obtain ⟨fs, path, now, file, hmem, hfile⟩ := h
  exact ⟨fs, path, now, file, hops hmem, hfile⟩

theorem lastUse_concat (key : FileKey) (ops : List Op) (op : Op) :
    lastUse key (ops ++ [op]) = match op with
      | .map fs path now => if keyOf fs path = some key then some now else lastUse key ops
      | _ => lastUse key ops := by
  cases op <;> simp [lastUse]

/--
**An entry has the content of a file with its key, and was used when such a file was
last mapped.**

Induction on the run from its end: a file that is mapped makes its own entry anew or
marks it, and a cleanup only removes entries.
-/
theorem entry_spec {maxSize : Nat} {ops : List Op} : ∀ {key : FileKey} {e : CacheEntry},
    ((withMaxSize maxSize).after ops).entry key = some e →
      Seen ops key e.mmap.content ∧ lastUse key ops = some e.lastUsed := by
  induction ops using List.reverseRecOn with
  | nil =>
      intro key e h
      cases h
  | append_singleton ops op ih =>
      intro key e h
      rw [after_append] at h
      change (((withMaxSize maxSize).after ops).step op).entry key = some e at h
      rw [lastUse_concat]
      have hold : ∀ {e' : CacheEntry}, ((withMaxSize maxSize).after ops).entry key = some e' →
          Seen (ops ++ [op]) key e'.mmap.content := fun he' => (ih he').1.mono (by simp)
      cases op with
      | release id => exact ⟨hold h, (ih h).2⟩
      | cleanup now =>
          obtain ⟨h, -⟩ := entry_cleanup.mp h
          exact ⟨hold h, (ih h).2⟩
      | map fs path now =>
          change (map _ fs path now).1.entry key = some e at h
          rcases map_cases ((withMaxSize maxSize).after ops) fs path now with
            ⟨hsame, -, hnone⟩ | ⟨file, key', hfile, hmeta, e', hused, -, hentry, hcontent⟩
          · rw [hsame] at h
            refine ⟨hold h, ?_⟩
            dsimp only
            rw [if_neg, (ih h).2]
            intro hkey
            rw [hnone key hkey] at h
            cases h
          · have hkeyOf : keyOf fs path = some key' := by
              unfold keyOf
              rw [hfile]
              exact hmeta
            rw [hentry] at h
            dsimp only
            rw [hkeyOf]
            split at h
            · rename_i hkey
              cases h
              subst hkey
              refine ⟨?_, by rw [if_pos rfl, hused]⟩
              rcases hcontent with ⟨old, hfound, hmmap⟩ | ⟨-, hcontent⟩
              · rw [hmmap]
                exact hold hfound
              · exact ⟨fs, path, now, file, by simp, hfile, hmeta, hcontent.symm⟩
            · rename_i hkey
              rw [if_neg (fun heq => hkey (Option.some.inj heq).symm)]
              exact ⟨hold h, (ih h).2⟩

/-- An entry that stays keeps its mapping. -/
theorem step_mmap {op : Op} {e' : CacheEntry} (h : s.entry key = some e)
    (h' : (s.step op).entry key = some e') : e'.mmap = e.mmap := by
  cases op with
  | release id =>
      cases h.symm.trans h'
      rfl
  | cleanup now =>
      obtain ⟨h', -⟩ := entry_cleanup.mp h'
      cases h.symm.trans h'
      rfl
  | map fs path now =>
      change (s.map fs path now).1.entry key = some e' at h'
      rcases s.map_cases fs path now with ⟨hsame, -⟩ | ⟨file, key', -, -, e₁, -, -, hentry, hcontent⟩
      · rw [hsame] at h'
        cases h.symm.trans h'
        rfl
      · rw [hentry] at h'
        split at h'
        · rename_i hkey
          cases h'
          subst hkey
          rcases hcontent with ⟨old, hfound, hmmap⟩ | ⟨hnone, -⟩
          · cases h.symm.trans hfound
            exact hmmap
          · rw [hnone] at h
            cases h
        · cases h.symm.trans h'
          rfl

/-- **An entry that stays through a run keeps its mapping.** -/
theorem after_mmap (ops : List Op) : ∀ {s : Mappings} {e : CacheEntry}, s.entry key = some e →
    (∀ l, l <+: ops → ∃ e', (s.after l).entry key = some e') →
      ∃ e', (s.after ops).entry key = some e' ∧ e'.mmap = e.mmap := by
  induction ops with
  | nil => exact fun h _ => ⟨_, h, rfl⟩
  | cons op ops ih =>
      intro s e h hstays
      obtain ⟨e₁, h₁⟩ := hstays [op] ⟨ops, rfl⟩
      obtain ⟨e₂, h₂, hmmap⟩ := ih (s := s.step op) h₁ fun l hl => by
        obtain ⟨rest, rfl⟩ := hl
        exact hstays (op :: l) ⟨rest, rfl⟩
      exact ⟨e₂, h₂, hmmap.trans (step_mmap h h₁)⟩

/-- Mapping a file gives the mapping of its entry. -/
theorem map_entry {h : Mmap} (hok : (s.map fs path now).2 = .ok h) :
    ∃ file key e, fs path = some file ∧ file.metadata = some key ∧
      (s.map fs path now).1.entry key = some e ∧ e.mmap = h := by
  rcases s.map_cases fs path now with ⟨-, ⟨err, herr⟩, -⟩ | ⟨file, key, hfile, hmeta, e, -, hres, hentry, -⟩
  · rw [herr] at hok
    cases hok
  · rw [hres] at hok
    cases hok
    exact ⟨file, key, e, hfile, hmeta, by rw [hentry, if_pos rfl], rfl⟩

/-- A file whose key has an entry gives that entry's mapping. -/
theorem map_of_entry (hkey : keyOf fs path = some key) (h : s.entry key = some e) :
    (s.map fs path now).2 = .ok e.mmap := by
  rcases s.map_cases fs path now with ⟨-, -, hnone⟩ | ⟨file, key', hfile, hmeta, e', -, hres, -, hcontent⟩
  · rw [hnone key hkey] at h
    cases h
  · unfold keyOf at hkey
    rw [hfile] at hkey
    cases hmeta.symm.trans hkey
    rcases hcontent with ⟨old, hfound, hmmap⟩ | ⟨hnone, -⟩
    · cases h.symm.trans hfound
      rw [hres, hmmap]
    · rw [hnone] at h
      cases h

/-! ### What a run keeps

The promise is put together from the invariant and the single call, with one field
for each thing a caller relies on.
-/

/-- What is promised of every call of a run. -/
structure KeepsMappings (maxSize : Nat) (ops : List Op) : Prop where
  /-- A handle has the content that the file had when it was mapped. -/
  content : ∀ before fs path now rest h, ops = before ++ .map fs path now :: rest →
    (((withMaxSize maxSize).after before).map fs path now).2 = .ok h →
      ∃ file, fs path = some file ∧ h.content = file.content
  /-- A cleanup keeps the entry of a mapping that is held. -/
  held : ∀ before now rest key e, ops = before ++ .cleanup now :: rest →
    ((withMaxSize maxSize).after before).entry key = some e →
      (∃ h ∈ ((withMaxSize maxSize).after before).handles, h.id = e.mmap.id) →
        ((withMaxSize maxSize).after (before ++ [.cleanup now])).entry key = some e
  /-- An unchanged file is given the same mapping as long as its entry is there. -/
  same : ∀ before fs path now between fs' path' now' rest h key,
    ops = before ++ .map fs path now :: (between ++ .map fs' path' now' :: rest) →
      (((withMaxSize maxSize).after before).map fs path now).2 = .ok h →
        keyOf fs path = some key → keyOf fs' path' = some key →
          (∀ l, l <+: between →
            ∃ e, ((withMaxSize maxSize).after (before ++ .map fs path now :: l)).entry key = some e) →
            (((withMaxSize maxSize).after (before ++ .map fs path now :: between)).map
              fs' path' now').2 = .ok h
  /-- A cleanup removes what nobody holds and was last used the expiry age ago. -/
  expired : ∀ before now rest key e, ops = before ++ .cleanup now :: rest →
    ((withMaxSize maxSize).after before).entry key = some e →
      (∀ h ∈ ((withMaxSize maxSize).after before).handles, h.id ≠ e.mmap.id) →
        ∃ used, lastUse key before = some used ∧
          (((withMaxSize maxSize).after before).cache.expireAge ≤ now - used →
            ((withMaxSize maxSize).after (before ++ [.cleanup now])).entry key = none)

/--
**No mapping that is held is dropped, and none is confused with another.**

The premise is the one every such cache has: a key stands for one content.
-/
theorem mappings_kept (maxSize : Nat) {ops : List Op} (hkeys : KeysKeepContent ops) :
    KeepsMappings maxSize ops where
  content := by
    rintro before fs path now rest h rfl hok
    obtain ⟨file, key, e, hfile, hmeta, hentry, rfl⟩ := map_entry hok
    have hafter : ((withMaxSize maxSize).after (before ++ [.map fs path now])).entry key = some e := by
      rw [after_append]
      exact hentry
    refine ⟨file, hfile, hkeys key _ _ ((entry_spec hafter).1.mono ?_) ?_⟩
    · simp
    · exact ⟨fs, path, now, file, by simp, hfile, hmeta, rfl⟩
  held := by
    rintro before now rest key e rfl hentry hheld
    rw [after_append]
    exact entry_cleanup.mpr ⟨hentry, keeps_iff.mpr (.inl hheld)⟩
  same := by
    rintro before fs path now between fs' path' now' rest h key rfl hok hkey hkey' hstays
    obtain ⟨file, key₁, e, hfile, hmeta, hentry, rfl⟩ := map_entry hok
    have hkey₁ : key₁ = key := by
      unfold keyOf at hkey
      rw [hfile] at hkey
      exact Option.some.inj (hmeta.symm.trans hkey)
    rw [hkey₁] at hentry
    obtain ⟨e', hentry', hmmap⟩ := after_mmap between hentry fun l hl => by
      obtain ⟨e', he'⟩ := hstays l hl
      rw [after_append] at he'
      exact ⟨e', he'⟩
    rw [after_append]
    exact (map_of_entry hkey' hentry').trans (by rw [hmmap])
  expired := by
    rintro before now rest key e rfl hentry hfree
    refine ⟨e.lastUsed, (entry_spec hentry).2, fun hage => ?_⟩
    rw [after_append]
    cases hafter : (((withMaxSize maxSize).after before).cleanup now).entry key with
    | none => exact hafter
    | some e' =>
        obtain ⟨hentry', hkeeps⟩ := entry_cleanup.mp hafter
        cases hentry.symm.trans hentry'
        rcases keeps_iff.mp hkeeps with ⟨h, hmem, hid⟩ | hlt
        · exact absurd hid (hfree h hmem)
        · omega

/-- A file is mapped, replaced and mapped again. -/
def replaced : List Op :=
  [.map twoBytes "/f".toList 0, .cleanup 1,
    .map (fun _ => some ⟨some ⟨1, 1, 1, 2, 0⟩, [104], true⟩) "/f".toList 2]

theorem mappings_kept_replaced : KeepsMappings 1 replaced := by
  refine mappings_kept 1 ?_
  rintro key content content' ⟨fs, path, now, file, hmem, hfile, hmeta, rfl⟩
    ⟨fs', path', now', file', hmem', hfile', hmeta', rfl⟩
  simp only [replaced, List.mem_cons, Op.map.injEq, reduceCtorEq, List.not_mem_nil, or_false,
    false_or] at hmem hmem'
  rcases hmem with ⟨rfl, -, -⟩ | ⟨rfl, -, -⟩
  · rcases hmem' with ⟨rfl, -, -⟩ | ⟨rfl, -, -⟩
    · cases hfile
      cases hfile'
      rfl
    · cases hfile
      cases hfile'
      cases hmeta
      cases hmeta'
  · rcases hmem' with ⟨rfl, -, -⟩ | ⟨rfl, -, -⟩
    · cases hfile
      cases hfile'
      cases hmeta
      cases hmeta'
    · cases hfile
      cases hfile'
      rfl

end Mappings

end Thttpd
