/-
The cache of mapped files: `rust/crates/thttpd-mmc/src/lib.rs`.

A mapping behind an `Rc` is an object with an identity, and the handles that callers hold
are part of the state: a mapping of the cache has one owner more than handles.  What is
in a mapping is what was in the file when it was mapped.  Instants and durations are
nanoseconds.
-/
import Thttpd.Lib.Assoc
import Thttpd.Lib.Text

namespace Thttpd

open Text

structure FileKey where
  dev : Nat
  ino : Nat
  size : Nat
  ctimeSec : Int
  ctimeNsec : Int
  deriving DecidableEq

/-- A mapped file behind an `Rc`. -/
structure Mmap where
  id : Nat
  content : Bytes
  deriving DecidableEq

structure CacheEntry where
  mmap : Mmap
  lastUsed : Nat
  size : Nat
  deriving DecidableEq

/--
What `File::open` gives: its metadata, unless they cannot be read, its content, and
whether that can be mapped.
-/
structure OpenFile where
  metadata : Option FileKey
  content : Bytes
  mappable : Bool

/-- The files that can be opened. -/
abbrev FileTable := Str → Option OpenFile

inductive MmapError where
  | fileNotFound (path : Str)
  | io
  deriving DecidableEq

structure MmapCache where
  entries : Assoc FileKey CacheEntry
  expireAge : Nat
  maxSize : Nat

/-- 120 seconds. -/
def defaultExpireAge : Nat := 120000000000

/-- The cache, the handles that are held outside it, and the next mapping's identity. -/
structure Mappings where
  cache : MmapCache
  handles : List Mmap
  nextId : Nat

namespace Mappings

def withMaxSize (maxSize : Nat) : Mappings := ⟨⟨Assoc.empty, defaultExpireAge, maxSize⟩, [], 0⟩

def new : Mappings := withMaxSize (64 * 1024 * 1024)

/-- A file is looked up by its key, and mapped if it is not there. -/
def map (s : Mappings) (fs : FileTable) (path : Str) (now : Nat) : Mappings × Except MmapError Mmap :=
  match fs path with
  | none => (s, .error (.fileNotFound path))
  | some file =>
      match file.metadata with
      | none => (s, .error .io)
      | some key =>
          match s.cache.entries.get? key with
          | some entry =>
              let entries := s.cache.entries.modify key fun entry => { entry with lastUsed := now }
              ({ s with
                  cache := { s.cache with entries := entries }
                  handles := entry.mmap :: s.handles },
                .ok entry.mmap)
          | none =>
              if file.mappable then
                let mmap := ⟨s.nextId, file.content⟩
                let entries := s.cache.entries.insert key ⟨mmap, now, key.size⟩
                (⟨{ s.cache with entries := entries }, mmap :: s.handles, s.nextId + 1⟩, .ok mmap)
              else (s, .error .io)

/-- A handle is dropped; `unmap` does nothing before that. -/
def release (s : Mappings) (id : Nat) : Mappings :=
  { s with handles := s.handles.eraseP (·.id = id) }

/-- `Rc::strong_count` of a mapping that is in the cache. -/
def strongCount (s : Mappings) (mmap : Mmap) : Nat := 1 + s.handles.countP (·.id = mmap.id)

/-- Whether `cleanup` keeps an entry. -/
def keeps (s : Mappings) (now : Nat) (entry : CacheEntry) : Bool :=
  1 < s.strongCount entry.mmap || now - entry.lastUsed < s.cache.expireAge

def retained (s : Mappings) (now : Nat) : Assoc FileKey CacheEntry :=
  s.cache.entries.part (s.cache.entries.entries.filter fun e => s.keeps now e.2) List.filter_sublist

/-- The total size of what is kept is above the limit. -/
def oversize (s : Mappings) (now : Nat) : Bool :=
  s.cache.maxSize < Tally.total (fun e => e.2.size) (s.retained now).entries

/-- How the expiry age is adapted. -/
def adapt (oversized : Bool) (expireAge : Nat) : Nat :=
  if oversized then expireAge / 2
  else if expireAge < defaultExpireAge then expireAge * 2
  else expireAge

def cleanup (s : Mappings) (now : Nat) : Mappings :=
  { s with
    cache :=
      { s.cache with
        entries := s.retained now
        expireAge := adapt (s.oversize now) s.cache.expireAge } }

/-! ### Runs -/

/-- A call, with the files and the clock as they are then. -/
inductive Op where
  | map (fs : FileTable) (path : Str) (now : Nat)
  | release (id : Nat)
  | cleanup (now : Nat)

def step (s : Mappings) : Op → Mappings
  | .map fs path now => (s.map fs path now).1
  | .release id => s.release id
  | .cleanup now => s.cleanup now

def after (s : Mappings) : List Op → Mappings
  | [] => s
  | op :: ops => (s.step op).after ops

end Mappings

end Thttpd
