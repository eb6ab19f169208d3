/-
The control plane.

Commands run one after the other, and each changes the weights in two places.  The
invariant `Aligned` says that the places agree, and everything the commands promise is
read off it.  The second half of the file looks at the writes inside one command, which
a router sees one by one.

A command reads the weights, checks what it is asked for and writes the pool and the
live configuration, entry by entry.  The invariant is carried over a whole command
(`Aligned.write`), in any order of the entries, since the two places are written
from the same map.  What a router can see in the middle of a command is another
matter and depends on that order.
-/
import Thttpd.Platform
import Thttpd.Proofs.Routing
import Thttpd.Lib.Lts

namespace Thttpd.Migrate

open Text Tally

namespace BackendPool

variable {p : BackendPool} {name : Str}

/-- What is found under a name is a backend of the pool. -/
theorem mem_of_get {b : Backend} (h : p.get name = some b) : b ∈ p.backends ∧ b.name = name := by
  unfold get at h
  exact ⟨List.mem_of_find?_eq_some h, by simpa using List.find?_some h⟩

/-- A name is known when a backend has it. -/
theorem get_isSome_iff : (p.get name).isSome = true ↔ name ∈ p.backends.map Backend.name := by
  constructor
  · intro h
    obtain ⟨b, hb⟩ := Option.isSome_iff_exists.mp h
    obtain ⟨hmem, rfl⟩ := mem_of_get hb
    exact List.mem_map_of_mem hmem
  · intro h
    obtain ⟨b, hb, rfl⟩ := List.mem_map.mp h
    exact List.find?_isSome.mpr ⟨b, hb, decide_eq_true rfl⟩

/-- One write is seen under its own name only. -/
theorem get_setWeight (p : BackendPool) (e : Str × Nat) (name : Str) :
    (p.setWeight e).get name =
      if name = e.1 then (p.get name).map ({ · with weight := e.2 }) else p.get name := by
  simp only [get, setWeight, setBackend]
  induction p.backends with
  | nil => simp
  | cons b rest ih =>
      simp only [List.map_cons, List.find?_cons]
      by_cases hbe : b.name = e.1
      · by_cases hbn : b.name = name
        · simp [hbe, hbn.symm.trans hbe]
        · have hen : ¬ e.1 = name := fun h => hbn (hbe.trans h)
          simpa [hbe, hen] using ih
      · by_cases hbn : b.name = name
        · have hne : name ≠ e.1 := fun h => hbe (hbn.trans h)
          simp [hbn, hne]
        · simpa [hbe, hbn] using ih

/-- What the pool holds once every entry of a map is written. -/
theorem get_setWeights (p : BackendPool) (weights : Assoc Str Nat) (name : Str) :
    (p.setWeights weights.entries).get name =
      (weights.get? name).elim (p.get name) fun w => (p.get name).map ({ · with weight := w }) :=
  Assoc.get_foldl get setWeight (fun w b => { b with weight := w }) get_setWeight weights p name

end BackendPool

/-- The map of the configuration has each backend with its weight. -/
theorem get?_configWeights (backends : Assoc Str BackendConfig) (weights : Assoc Str Nat)
    (name : Str) :
    (configWeights backends weights.entries).get? name =
      (weights.get? name).elim (backends.get? name) fun w =>
        (backends.get? name).map ({ · with weight := w }) := by
  unfold configWeights
  refine Assoc.get_foldl Assoc.get? _ (fun w b => { b with weight := w }) ?_ weights backends name
  intro m e k
  exact Assoc.get?_modify m e.1 k _

/-- And no other name. -/
theorem keys_configWeights (backends : Assoc Str BackendConfig) (entries : List (Str × Nat)) :
    (configWeights backends entries).keys = backends.keys := by
  unfold configWeights
  induction entries generalizing backends with
  | nil => rfl
  | cons e rest ih => rw [List.foldl_cons, ih, Assoc.keys_modify]

/-- The map of a rollback has an entry for every backend. -/
theorem rollbackWeights_entries (p : BackendPool) (target : Str)
    (hnd : (p.backends.map Backend.name).Nodup) :
    (p.rollbackWeights target).entries =
      p.backends.map fun b => (b.name, if b.name = target then 100 else 0) := by
  have general : ∀ (l : List Backend) (m : Assoc Str Nat), (l.map Backend.name).Nodup →
      (∀ b ∈ l, b.name ∉ m.keys) →
      (l.foldl (fun m b => m.insert b.name (if b.name = target then 100 else 0)) m).entries =
        m.entries ++ l.map fun b => (b.name, if b.name = target then 100 else 0) := by
    intro l
    induction l with
    | nil => intro m _ _; simp
    | cons b rest ih =>
        intro m hnd hnew
        rw [List.map_cons, List.nodup_cons] at hnd
        have hins := Assoc.entries_insert_of_not_mem
          (if b.name = target then 100 else 0) (hnew b (by simp))
        rw [List.foldl_cons, ih _ hnd.2, hins]
        · simp
        · intro c hc hmem
          unfold Assoc.keys at hmem
          rw [hins, List.map_append, List.mem_append] at hmem
          rcases hmem with hmem | hmem
          · exact hnew c (by simp [hc]) hmem
          · have hcb : c.name = b.name := by simpa using hmem
            exact hnd.1 (hcb ▸ List.mem_map_of_mem hc)
  exact general p.backends Assoc.empty hnd (by simp [Assoc.keys, Assoc.empty])

/-- In that map the target has everything and the others have nothing. -/
theorem get?_rollbackWeights {p : BackendPool} (hnd : (p.backends.map Backend.name).Nodup)
    (h : Hasher Str Nat) (target : Str) {b : Backend} (hb : b ∈ p.backends) :
    (h.order (p.rollbackWeights target)).get? b.name =
      some (if b.name = target then 100 else 0) := by
  rw [Assoc.get?_of_perm (h.perm _), Assoc.get?_eq_some_iff, rollbackWeights_entries p target hnd]
  exact List.mem_map.mpr ⟨b, hb, rfl⟩

/-! ### What the commands keep

`Aligned` says it of the names, of the weights and of the routing, and keeps what
`validate` had checked: somebody has a weight, and in shadow mode two different
backends are named.  A command that fails is one whose checks failed, and those come
before the first write.
-/

/-- What shadow mode needs: two different backends that are known. -/
def ShadowNamed (routing : RoutingConfig) (keys : List Str) : Prop :=
  routing.mode = .shadow → ∃ primary shadow, routing.primaryBackend = some primary ∧
    routing.shadowBackend = some shadow ∧ primary ≠ shadow ∧ primary ∈ keys ∧ shadow ∈ keys

/-- The pool and the live configuration agree, on the backends of `cfg`. -/
structure Aligned (cfg : ProxyConfig) (s : LiveState) : Prop where
  nodup : (s.pool.backends.map Backend.name).Nodup
  known : ∀ name, name ∈ s.pool.backends.map Backend.name ↔ name ∈ cfg.backends.keys
  keys : s.config.backends.keys = cfg.backends.keys
  weights : ∀ name, (s.pool.get name).map Backend.weight =
    (s.config.backends.get? name).map BackendConfig.weight
  carries : ∃ b ∈ s.pool.backends, 0 < b.weight
  mode : s.config.routing.mode = cfg.routing.mode
  shadow : ShadowNamed s.config.routing cfg.backends.keys

/-- A check comes out well only if what it checks is so. -/
theorem ensure_eq_ok {b : Bool} {message : Str} {u : Unit} (h : ensure b message = .ok u) :
    b = true := by
  unfold ensure at h
  split at h
  · assumption
  · cases h

/-- A check that let the function go on has passed. -/
theorem of_ensure {b : Bool} {message : Str} {f : Unit → Except Str Unit}
    (h : (ensure b message >>= f) = .ok ()) : b = true ∧ f () = .ok () := by
  obtain ⟨_, hb, hf⟩ := bind_eq_ok.mp h
  exact ⟨ensure_eq_ok hb, hf⟩

theorem validateShadow_spec {cfg : ProxyConfig} (h : validateShadow cfg = .ok ()) :
    ∃ primary shadow, cfg.routing.primaryBackend = some primary ∧
      cfg.routing.shadowBackend = some shadow ∧ primary ≠ shadow ∧
      primary ∈ cfg.backends.keys ∧ shadow ∈ cfg.backends.keys := by
  unfold validateShadow at h
  obtain ⟨hp, h⟩ := of_ensure h
  obtain ⟨hs, h⟩ := of_ensure h
  obtain ⟨hne, h⟩ := of_ensure h
  obtain ⟨hpk, h⟩ := of_ensure h
  have hsk := ensure_eq_ok h
  obtain ⟨primary, hprimary⟩ := Option.isSome_iff_exists.mp hp
  obtain ⟨shadow, hshadow⟩ := Option.isSome_iff_exists.mp hs
  rw [hprimary] at hne hpk
  rw [hshadow] at hne hsk
  refine ⟨primary, shadow, hprimary, hshadow, ?_, Assoc.contains_iff.mp hpk,
    Assoc.contains_iff.mp hsk⟩
  rintro rfl
  simp at hne

/-- What `validate` accepts. -/
theorem validate_spec {k : Parsers} {cfg : ProxyConfig} (h : validate k cfg = .ok ()) :
    0 < configuredWeight cfg.backends ∧ ShadowNamed cfg.routing cfg.backends.keys := by
  unfold validate at h
  obtain ⟨-, h⟩ := of_ensure h
  obtain ⟨_, -, h⟩ := bind_eq_ok.mp h
  obtain ⟨hweight, h⟩ := of_ensure h
  refine ⟨of_decide_eq_true hweight, ?_⟩
  intro hmode
  rw [if_pos hmode] at h
  obtain ⟨_, hshadow, -⟩ := bind_eq_ok.mp h
  exact validateShadow_spec hshadow

theorem configuredWeight_eq (backends : Assoc Str BackendConfig) :
    configuredWeight backends = u32 (total (fun e => e.2.weight) backends.entries) := by
  have h := foldl_wrap (f := fun e : Str × BackendConfig => e.2.weight) 4294967296 backends.entries 0
  rw [Nat.zero_add] at h
  exact h

/-- A machine sum that is not zero has a summand that is not. -/
theorem exists_pos_of_mod {α : Type} {f : α → Nat} {l : List α} {m : Nat}
    (h : 0 < total f l % m) : ∃ a ∈ l, 0 < f a := by
  refine total_pos_iff.mp (Nat.pos_of_ne_zero fun hz => ?_)
  rw [hz, Nat.zero_mod] at h
  cases h

theorem get_poolOf {cfg : ProxyConfig} {order : List (Str × BackendConfig)}
    (hperm : order.Perm cfg.backends.entries) (now : Nat) (name : Str) :
    ((poolOf cfg order now).get name).map Backend.weight =
      (cfg.backends.get? name).map BackendConfig.weight := by
  have hnd : (order.map Prod.fst).Nodup := (hperm.map Prod.fst).nodup_iff.mpr cfg.backends.nodup
  rw [← Assoc.get?_of_perm (m := ⟨order, hnd⟩) hperm]
  simp only [BackendPool.get, poolOf, BackendPool.withBreakerCfg, Assoc.get?, List.map_map,
    List.find?_map, Option.map_map, Function.comp_def]

/-- The proxy starts aligned. -/
theorem Aligned.start {k : Parsers} {cfg : ProxyConfig} {order : List (Str × BackendConfig)}
    (hvalid : validate k cfg = .ok ()) (hperm : order.Perm cfg.backends.entries) (now : Nat) :
    Aligned cfg ⟨cfg, poolOf cfg order now⟩ := by
  obtain ⟨hweight, hshadow⟩ := validate_spec hvalid
  refine ⟨?_, ?_, rfl, get_poolOf hperm now, ?_, rfl, hshadow⟩
  · rw [names_poolOf]
    exact (hperm.map Prod.fst).nodup_iff.mpr cfg.backends.nodup
  · intro name
    rw [names_poolOf]
    exact (hperm.map Prod.fst).mem_iff
  · rw [configuredWeight_eq] at hweight
    obtain ⟨e, he, hpos⟩ := exists_pos_of_mod hweight
    refine ⟨⟨e.1, e.2.address, e.2.weight, .healthy⟩, ?_, hpos⟩
    simp only [poolOf, BackendPool.withBreakerCfg, List.map_map, List.mem_map]
    exact ⟨e, hperm.mem_iff.mpr he, rfl⟩

/-- Writing the same weights in both places keeps them aligned. -/
theorem Aligned.write {cfg : ProxyConfig} {s : LiveState} {routing : RoutingConfig}
    {weights : Assoc Str Nat} (ha : Aligned cfg s)
    (hcarries : ∃ b ∈ s.pool.backends, 0 < BackendPool.prospective weights b)
    (hmode : routing.mode = cfg.routing.mode) (hshadow : ShadowNamed routing cfg.backends.keys) :
    Aligned cfg
      ⟨{ s.config with backends := configWeights s.config.backends weights.entries, routing },
        s.pool.setWeights weights.entries⟩ where
  nodup := by
    rw [BackendPool.names_setWeights]
    exact ha.nodup
  known := by
    intro name
    rw [BackendPool.names_setWeights]
    exact ha.known name
  keys := by
    rw [keys_configWeights]
    exact ha.keys
  weights := by
    intro name
    have hold := ha.weights name
    rw [BackendPool.get_setWeights, get?_configWeights]
    cases weights.get? name with
    | none => exact hold
    | some w =>
        simp only [Option.elim_some, Option.map_map, Function.comp_def]
        cases hp : s.pool.get name with
        | none =>
            rw [hp] at hold
            rw [Option.map_eq_none_iff.mp hold.symm]
            rfl
        | some b =>
            rw [hp] at hold
            obtain ⟨c, hc, -⟩ := Option.map_eq_some_iff.mp hold.symm
            rw [hc]
            rfl
  carries := by
    obtain ⟨b, hb, hpos⟩ := hcarries
    have hget := BackendPool.get_of_mem ha.nodup hb
    have hnew := BackendPool.get_setWeights s.pool weights b.name
    rw [hget] at hnew
    cases hw : weights.get? b.name with
    | none =>
        rw [hw] at hnew
        refine ⟨b, (BackendPool.mem_of_get hnew).1, ?_⟩
        simpa [BackendPool.prospective, hw] using hpos
    | some w =>
        rw [hw] at hnew
        refine ⟨{ b with weight := w }, (BackendPool.mem_of_get hnew).1, ?_⟩
        simpa [BackendPool.prospective, hw] using hpos
  mode := hmode
  shadow := hshadow

/-- The sum a command checks is that of the weights after it. -/
theorem prospectiveTotal_eq (p : BackendPool) (weights : Assoc Str Nat) :
    p.prospectiveTotal weights = u64 (total (BackendPool.prospective weights) p.backends) := by
  have h := foldl_wrap (f := BackendPool.prospective weights) 18446744073709551616 p.backends 0
  rw [Nat.zero_add] at h
  exact h

theorem Aligned.setWeights {cfg : ProxyConfig} {s s' : LiveState} {weights : Assoc Str Nat}
    (ha : Aligned cfg s) (hok : s.setWeights weights = .ok s') : Aligned cfg s' := by
  obtain ⟨-, htotal, rfl⟩ := LiveState.setWeights_eq_ok hok
  rw [prospectiveTotal_eq] at htotal
  exact ha.write (exists_pos_of_mod htotal) ha.mode ha.shadow

/-- In shadow mode a rollback makes its target the primary, beside another backend. -/
theorem rollbackRouting_spec {routing : RoutingConfig} {keys : List Str} (keys' : List Str)
    {target : Str} (hnamed : ShadowNamed routing keys) (htarget : target ∈ keys) :
    (LiveState.rollbackRouting routing keys' target).mode = routing.mode ∧
    ShadowNamed (LiveState.rollbackRouting routing keys' target) keys ∧
    (routing.mode = .shadow →
      (LiveState.rollbackRouting routing keys' target).primaryBackend = some target) := by
  by_cases hmode : routing.mode = .shadow
  · obtain ⟨primary, shadow, hp, hs, hne, hpk, hsk⟩ := hnamed hmode
    by_cases hsame : primary = target
    · have hkeep : LiveState.rollbackRouting routing keys' target = routing := by
        simp [LiveState.rollbackRouting, hmode, hp, hsame]
      rw [hkeep]
      exact ⟨rfl, hnamed, fun _ => hsame ▸ hp⟩
    · -- The previous primary is another backend, so the first fallback is taken.
      have hnew : LiveState.rollbackRouting routing keys' target =
          { routing with primaryBackend := some target, shadowBackend := some primary } := by
        simp [LiveState.rollbackRouting, hmode, hp, hsame, Option.filter]
      rw [hnew]
      refine ⟨rfl, fun _ => ⟨target, primary, rfl, rfl, ?_, htarget, hpk⟩, fun _ => rfl⟩
      exact fun h => hsame h.symm
  · have hkeep : LiveState.rollbackRouting routing keys' target = routing := if_neg hmode
    rw [hkeep]
    exact ⟨rfl, hnamed, fun h => absurd h hmode⟩

theorem Aligned.rollback {cfg : ProxyConfig} {s s' : LiveState} {h : Hasher Str Nat} {target : Str}
    (ha : Aligned cfg s) (hok : s.rollback h target = .ok s') :
    Aligned cfg s' ∧ (s'.config.routing.mode = .shadow →
      s'.config.routing.primaryBackend = some target) := by
  obtain ⟨hknown, rfl⟩ := LiveState.rollback_eq_ok hok
  have hname := BackendPool.get_isSome_iff.mp hknown
  obtain ⟨b, hb, rfl⟩ := List.mem_map.mp hname
  obtain ⟨hmode, hshadow, hprimary⟩ := rollbackRouting_spec
    (configWeights s.config.backends (h.order (s.pool.rollbackWeights b.name)).entries).keys
    ha.shadow ((ha.known b.name).mp hname)
  refine ⟨ha.write ⟨b, hb, ?_⟩ (hmode.trans ha.mode) hshadow, fun hm => hprimary (hmode ▸ hm)⟩
  simp [BackendPool.prospective, get?_rollbackWeights ha.nodup h b.name hb]

/-- The weights after a rollback. -/
theorem rollback_weights {cfg : ProxyConfig} {s s' : LiveState} {h : Hasher Str Nat} {target : Str}
    (ha : Aligned cfg s) (hok : s.rollback h target = .ok s') :
    (s'.pool.get target).map Backend.weight = some 100 ∧
    ∀ name b, name ≠ target → s'.pool.get name = some b → b.weight = 0 := by
  obtain ⟨hknown, rfl⟩ := LiveState.rollback_eq_ok hok
  have hnew (c : Backend) (hc : c ∈ s.pool.backends) :
      (s.pool.setWeights (h.order (s.pool.rollbackWeights target)).entries).get c.name =
        some { c with weight := if c.name = target then 100 else 0 } := by
    rw [BackendPool.get_setWeights, get?_rollbackWeights ha.nodup h target hc,
      BackendPool.get_of_mem ha.nodup hc]
    rfl
  constructor
  · obtain ⟨b, hb⟩ := Option.isSome_iff_exists.mp hknown
    obtain ⟨hmem, rfl⟩ := BackendPool.mem_of_get hb
    rw [hnew b hmem, if_pos rfl]
    rfl
  · intro name c hne hc
    have hold : name ∈ s.pool.backends.map Backend.name := by
      rw [← BackendPool.names_setWeights s.pool
        (h.order (s.pool.rollbackWeights target)).entries]
      exact BackendPool.get_isSome_iff.mp (Option.isSome_of_eq_some hc)
    obtain ⟨b, hmem, rfl⟩ := List.mem_map.mp hold
    rw [hnew b hmem, if_neg hne] at hc
    obtain rfl := Option.some.inj hc
    rfl

/-! ### Runs of commands

Any commands, one after the other, each of which may fail.
-/

/-- What commands can make of a proxy started with `cfg`. -/
def Commanded (cfg : ProxyConfig) : LiveState → Prop :=
  Lts.Reachable
    (fun s => ∃ k order now, validate k cfg = .ok () ∧ order.Perm cfg.backends.entries ∧
      s = ⟨cfg, poolOf cfg order now⟩)
    (fun s s' => ∃ h request, (s.handle h request).2 = s')

namespace LiveState

variable {s s' : LiveState} {h : Hasher Str Nat} {request : ControlRequest}

/-- A command fails and changes nothing, or is one of the two. -/
theorem handle_cases (h : Hasher Str Nat) (s : LiveState) (request : ControlRequest) :
    (∃ e, s.handle h request = (.error e, s)) ∨
    ∃ s', s.handle h request = (.ok (), s') ∧
      ((∃ weights, request = .setWeight weights ∧ s.setWeights weights = .ok s') ∨
        ∃ target, request = .rollback target ∧ s.rollback h target = .ok s') := by
  cases request with
  | setWeight weights =>
      cases hok : s.setWeights weights with
      | error e => exact .inl ⟨"set-weight failed: ".toList ++ e, by simp only [handle, hok]⟩
      | ok s' => exact .inr ⟨s', by simp only [handle, hok], .inl ⟨weights, rfl, hok⟩⟩
  | rollback target =>
      cases hok : s.rollback h target with
      | error e => exact .inl ⟨"rollback failed: ".toList ++ e, by simp only [handle, hok]⟩
      | ok s' => exact .inr ⟨s', by simp only [handle, hok], .inr ⟨target, rfl, hok⟩⟩

end LiveState

theorem Aligned.handle {cfg : ProxyConfig} {s : LiveState} (ha : Aligned cfg s)
    (h : Hasher Str Nat) (request : ControlRequest) : Aligned cfg (s.handle h request).2 := by
  rcases s.handle_cases h request with
    ⟨e, hfail⟩ | ⟨s', hdone, ⟨weights, -, hok⟩ | ⟨target, -, hok⟩⟩
  · rw [hfail]
    exact ha
  · rw [hdone]
    exact ha.setWeights hok
  · rw [hdone]
    exact (ha.rollback hok).1

/--
**The two places agree after any of them.**

Reading a weight from the pool or from the configuration must come to the same, and
both are written by each command that changes one.
-/
theorem Commanded.aligned {cfg : ProxyConfig} {s : LiveState} (hr : Commanded cfg s) :
    Aligned cfg s := by
  refine Lts.Reachable.invariant (Aligned cfg) hr ?_ ?_
  · rintro s ⟨k, order, now, hvalid, hperm, rfl⟩
    exact Aligned.start hvalid hperm now
  · rintro s s' ha ⟨h, request, rfl⟩
    exact ha.handle h request

/-- **The control plane is consistent**, after every sequence of commands. -/
theorem control_plane_consistent {cfg : ProxyConfig} {s : LiveState} (hr : Commanded cfg s) :
    (∀ name, (s.pool.get name).map Backend.weight =
      (s.config.backends.get? name).map BackendConfig.weight) ∧
    0 < total Backend.weight s.pool.backends ∧
    (∀ name, (s.pool.get name).isSome = true ↔ name ∈ cfg.backends.keys) ∧
    s.config.backends.keys = cfg.backends.keys ∧
    (s.config.routing.mode = .shadow → ∃ primary shadow,
      s.config.routing.primaryBackend = some primary ∧
      s.config.routing.shadowBackend = some shadow ∧ primary ≠ shadow ∧
      primary ∈ s.config.backends.keys ∧ shadow ∈ s.config.backends.keys) ∧
    (∀ h request e s', s.handle h request = (.error e, s') → s' = s) ∧
    (∀ h target s', s.handle h (.rollback target) = (.ok (), s') →
      (s'.pool.get target).map Backend.weight = some 100 ∧
      (∀ name b, name ≠ target → s'.pool.get name = some b → b.weight = 0) ∧
      (s'.config.routing.mode = .shadow → s'.config.routing.primaryBackend = some target)) := by
  have ha := hr.aligned
  refine ⟨ha.weights, total_pos_iff.mpr ha.carries, ?_, ha.keys, ?_, ?_, ?_⟩
  · intro name
    rw [BackendPool.get_isSome_iff, ha.known]
  · rw [ha.keys]
    exact ha.shadow
  · intro h request e s' hfail
    rcases s.handle_cases h request with ⟨e', hsame⟩ | ⟨s₁, hdone, -⟩
    · rw [hsame] at hfail
      exact (Prod.ext_iff.mp hfail).2.symm
    · rw [hdone] at hfail
      cases hfail
  · intro h target s' hdone
    rcases s.handle_cases h (.rollback target) with
      ⟨e, hfail⟩ | ⟨s₁, hdone', ⟨weights, hreq, -⟩ | ⟨target', hreq, hok⟩⟩
    · rw [hfail] at hdone
      cases hdone
    · cases hreq
    · cases hreq
      rw [hdone'] at hdone
      obtain rfl := (Prod.ext_iff.mp hdone).2
      exact ⟨(rollback_weights ha hok).1, (rollback_weights ha hok).2, (ha.rollback hok).2⟩

/-- A hasher that keeps the order of insertion. -/
def insertionOrder : Hasher Str Nat := ⟨id, fun _ => List.Perm.refl _⟩

/-- The two backends of `pairConfig`, the first live and the second its shadow. -/
def shadowConfig : ProxyConfig :=
  { pairConfig 95 5 with routing := ⟨.shadow, some ['a'], some ['b'], []⟩ }

theorem control_plane_consistent_sample :
    ∃ s, Commanded shadowConfig s ∧ s.config.routing.primaryBackend = some ['b'] ∧
      s.config.routing.shadowBackend = some ['a'] ∧
      (s.pool.get ['b']).map Backend.weight = some 100 ∧
      0 < total Backend.weight s.pool.backends := by
  have hstart : Commanded shadowConfig
      ⟨shadowConfig, poolOf shadowConfig shadowConfig.backends.entries 0⟩ :=
    Lts.Reachable.start ⟨.sample, _, 0, rfl, List.Perm.refl _, rfl⟩
  have hnext := Lts.Reachable.tail hstart ⟨insertionOrder, .rollback ['b'], rfl⟩
  obtain ⟨-, htotal, -⟩ := control_plane_consistent hnext
  obtain ⟨-, -, -, -, -, -, hrolled⟩ := control_plane_consistent hstart
  obtain ⟨hweight, -, -⟩ := hrolled insertionOrder ['b'] _ rfl
  exact ⟨_, hnext, rfl, rfl, hweight, htotal⟩

/-! ### The writes inside a command

A router takes the lock for one read, so between two writes of a command it can
decide over weights of which some are new and some are old.  What it sees is the pool
after a prefix of the entries, and the order of the entries is that of a hash map,
hence any.
-/

/-- Some backend has a weight. -/
def Carries (p : BackendPool) : Prop := ∃ b ∈ p.backends, 0 < b.weight

namespace BackendPool

/-- What a router sees is the pool after the first few entries. -/
theorem mem_writes_iff {p q : BackendPool} {entries : List (Str × Nat)} :
    q ∈ p.writes entries ↔ ∃ part, part <+: entries ∧ part ≠ [] ∧ q = p.setWeights part := by
  induction entries generalizing p with
  | nil =>
      constructor
      · intro h; cases h
      · rintro ⟨part, hpart, hne, -⟩
        exact absurd (List.prefix_nil.mp hpart) hne
  | cons e rest ih =>
      rw [writes, List.mem_cons, ih]
      constructor
      · rintro (rfl | ⟨part, hpart, -, rfl⟩)
        · exact ⟨[e], List.prefix_iff_eq_append.mpr rfl, by simp, rfl⟩
        · exact ⟨e :: part, List.cons_prefix_cons.mpr ⟨rfl, hpart⟩, by simp, rfl⟩
      · rintro ⟨part, hpart, hne, rfl⟩
        obtain ⟨e', part', rfl⟩ := List.exists_cons_of_ne_nil hne
        obtain ⟨rfl, hpart'⟩ := List.cons_prefix_cons.mp hpart
        by_cases hnil : part' = []
        · subst hnil
          exact .inl rfl
        · exact .inr ⟨part', hpart', hnil, rfl⟩

end BackendPool

/-- A backend that has a weight before and after has one throughout. -/
theorem carries_of_kept {p q : BackendPool} {weights : Assoc Str Nat} {b : Backend}
    (hnd : (p.backends.map Backend.name).Nodup) (hb : b ∈ p.backends) (hpos : 0 < b.weight)
    (hkept : weights.get? b.name ≠ some 0) (hq : q ∈ p.writes weights.entries) : Carries q := by
  obtain ⟨part, hpart, -, rfl⟩ := BackendPool.mem_writes_iff.mp hq
  have hget := BackendPool.get_setWeights p (weights.part part hpart.sublist) b.name
  rw [BackendPool.get_of_mem hnd hb] at hget
  cases hw : (weights.part part hpart.sublist).get? b.name with
  | none =>
      rw [hw] at hget
      exact ⟨b, (BackendPool.mem_of_get hget).1, hpos⟩
  | some w =>
      rw [hw] at hget
      refine ⟨_, (BackendPool.mem_of_get hget).1, Nat.pos_of_ne_zero ?_⟩
      rintro rfl
      exact hkept (Assoc.get?_eq_some_iff.mpr
        (hpart.sublist.subset (Assoc.get?_eq_some_iff.mp hw)))

/-- The entries that set a weight to zero come first. -/
def zeroFirst : Hasher Str Nat where
  order m :=
    ⟨m.entries.filter (fun e => e.2 = 0) ++ m.entries.filter (fun e => !decide (e.2 = 0)),
      ((List.filter_append_perm _ _).map Prod.fst).nodup_iff.mpr m.nodup⟩
  perm _ := List.filter_append_perm _ _

/--
If every weight there is is taken away, then in that order they are all gone before
the first new one is set.
-/
theorem outage_of_lost {p : BackendPool} {weights : Assoc Str Nat}
    (hnd : (p.backends.map Backend.name).Nodup) (hcarries : Carries p)
    (hlost : ∀ b ∈ p.backends, 0 < b.weight → weights.get? b.name = some 0) :
    ∃ q ∈ p.writes (zeroFirst.order weights).entries, ¬ Carries q := by
  have hsub : (weights.entries.filter fun e => e.2 = 0).Sublist weights.entries :=
    List.filter_sublist
  refine ⟨p.setWeights (weights.entries.filter fun e => e.2 = 0), ?_, ?_⟩
  · refine BackendPool.mem_writes_iff.mpr ⟨_, List.prefix_append _ _, ?_, rfl⟩
    obtain ⟨b, hb, hpos⟩ := hcarries
    have hmem := Assoc.get?_eq_some_iff.mp (hlost b hb hpos)
    exact List.ne_nil_of_mem (List.mem_filter.mpr ⟨hmem, rfl⟩)
  · rintro ⟨c, hc, hcpos⟩
    have hnames := BackendPool.names_setWeights p (weights.entries.filter fun e => e.2 = 0)
    have hcget := (BackendPool.get_setWeights p (weights.part _ hsub) c.name).symm.trans
      (BackendPool.get_of_mem (hnames ▸ hnd) hc)
    cases hw : (weights.part _ hsub).get? c.name with
    | some w =>
        -- It was set, and to zero.
        rw [hw] at hcget
        obtain ⟨b, -, rfl⟩ := Option.map_eq_some_iff.mp hcget
        have hzero : w = 0 :=
          of_decide_eq_true (List.mem_filter.mp (Assoc.get?_eq_some_iff.mp hw)).2
        exact Nat.ne_of_gt hcpos hzero
    | none =>
        -- It was not, so it has the weight it had, and was to lose it.
        rw [hw] at hcget
        have hmem := Assoc.get?_eq_some_iff.mp
          (hlost c (BackendPool.mem_of_get hcget).1 hcpos)
        have habsent := Assoc.get?_eq_none_iff.mp hw
        exact habsent (List.mem_map.mpr ⟨_, List.mem_filter.mpr ⟨hmem, rfl⟩, rfl⟩)

/--
**When a change of weights cannot open an outage**: whatever order the hash map of a
`set_weights` or of a `rollback` is iterated in, a router finds a backend with a
weight after every single write, exactly when some backend that has one is not set
to zero.

The writes are made one after the other, and a request may be routed between any two
of them.  So the order matters, and it is that of a hash map.
-/
theorem weight_change_outage_iff (s : LiveState)
    (hnd : (s.pool.backends.map Backend.name).Nodup)
    (htotal : 0 < total Backend.weight s.pool.backends) :
    (∀ (weights : Assoc Str Nat) (s' : LiveState), s.setWeights weights = .ok s' →
      ((∀ m : Assoc Str Nat, m.entries.Perm weights.entries →
          ∀ q ∈ s.pool.writes m.entries, ∃ b ∈ q.backends, 0 < b.weight) ↔
        ∃ b ∈ s.pool.backends, 0 < b.weight ∧ weights.get? b.name ≠ some 0)) ∧
    (∀ target : Str, (s.pool.get target).isSome = true →
      ((∀ h : Hasher Str Nat,
          ∀ q ∈ s.pool.writes (h.order (s.pool.rollbackWeights target)).entries,
            ∃ b ∈ q.backends, 0 < b.weight) ↔
        0 < s.pool.weight target)) := by
  constructor
  · intro weights s' _
    constructor
    · intro hall
      by_contra hnone
      have hlost : ∀ b ∈ s.pool.backends, 0 < b.weight → weights.get? b.name = some 0 := by
        intro b hb hpos
        by_contra hkept
        exact hnone ⟨b, hb, hpos, hkept⟩
      obtain ⟨q, hq, hout⟩ := outage_of_lost hnd (total_pos_iff.mp htotal) hlost
      exact hout (hall (zeroFirst.order weights) (zeroFirst.perm weights) q hq)
    · rintro ⟨b, hb, hpos, hkept⟩ m hm q hq
      refine carries_of_kept hnd hb hpos ?_ hq
      rw [Assoc.get?_of_perm hm]
      exact hkept
  · intro target hknown
    obtain ⟨t, ht⟩ := Option.isSome_iff_exists.mp hknown
    obtain ⟨htmem, rfl⟩ := BackendPool.mem_of_get ht
    rw [BackendPool.weight_of_mem hnd htmem]
    constructor
    · intro hall
      by_contra hzero
      have hlost : ∀ b ∈ s.pool.backends, 0 < b.weight →
          (s.pool.rollbackWeights t.name).get? b.name = some 0 := by
        intro b hb hpos
        have hne : b.name ≠ t.name := by
          intro hname
          have hsame := BackendPool.get_of_mem hnd hb
          rw [hname, ht] at hsame
          rw [Option.some.inj hsame] at hzero
          exact hzero hpos
        have hget := get?_rollbackWeights hnd insertionOrder t.name hb
        rw [if_neg hne] at hget
        exact hget
      obtain ⟨q, hq, hout⟩ := outage_of_lost hnd (total_pos_iff.mp htotal) hlost
      exact hout (hall zeroFirst q hq)
    · intro hpos h q hq
      refine carries_of_kept hnd htmem hpos ?_ hq
      rw [get?_rollbackWeights hnd h t.name htmem, if_pos rfl]
      simp

theorem weight_change_outage_iff_sample :
    (∀ m : Assoc Str Nat, m.entries.Perm (pairWeights 5 95).entries →
      ∀ q ∈ (pairState 95 5).pool.writes m.entries, ∃ b ∈ q.backends, 0 < b.weight) ∧
    ∀ h : Hasher Str Nat,
      ∀ q ∈ (pairState 95 5).pool.writes
        (h.order ((pairState 95 5).pool.rollbackWeights ['a'])).entries,
        ∃ b ∈ q.backends, 0 < b.weight := by
  obtain ⟨hset, hroll⟩ := weight_change_outage_iff (pairState 95 5) (by decide) (by decide)
  constructor
  · exact (hset (pairWeights 5 95) _ rfl).mpr ⟨_, List.mem_cons_self, by decide, by decide⟩
  · exact (hroll ['a'] rfl).mpr (by decide)

/-- Moving all of the weight to the other backend: the old one may lose it first. -/
theorem weight_change_opens_outage :
    (∃ s', (pairState 100 0).setWeights (pairWeights 0 100) = .ok s') ∧
    (∃ q ∈ (pairState 100 0).pool.writes (pairWeights 0 100).entries,
      ∀ b ∈ q.backends, b.weight = 0) ∧
    ∃ q ∈ (pairState 100 0).pool.writes
        (insertionOrder.order ((pairState 100 0).pool.rollbackWeights ['b'])).entries,
      ∀ b ∈ q.backends, b.weight = 0 := by
  refine ⟨⟨_, rfl⟩, ⟨_, List.mem_cons_self, ?_⟩, ⟨_, List.mem_cons_self, ?_⟩⟩
  · decide
  · decide

end Thttpd.Migrate
