import GoFtrace.Bpf.Trace
import GoFtrace.Uprobe.Uprobe

/-!
# Loading

`Load` of `internal/bpf/bpf.go`: the configuration and the maps that are filled from the
list of probes before the programs are attached.

* `load_ok`: what the maps hold afterwards.
-/

namespace GoFtrace.Bpf

/-- `Update(key, value, ebpf.UpdateNoExist)`. -/
def updateNoExist {α : Type} (map : UInt64 → Option α) (key : UInt64) (value : α) :
    Except LoadError (UInt64 → Option α) :=
  if (map key).isSome then .error .keyExists
  else .ok (Function.update map key (some value))

/-- Whether `setWanted` is called for a probe. -/
def isWantedEntry (p : Uprobe) : Bool := p.wanted && p.location == .atEntry

/-- Whether `setWantedRet` is called for a probe. -/
def isWantedRet (adaptive : Bool) (p : Uprobe) : Bool :=
  adaptive && p.wanted && p.location == .atRet

/-- `wantedEntries[name]`: the address stored last, or `0`. -/
def wantedEntry (uprobes : List Uprobe) (name : String) : UInt64 :=
  match (uprobes.filter fun p => isWantedEntry p && p.funcname == name).getLast? with
  | some p => p.address
  | none => 0

/-- The calls of `setWanted`. -/
def loadWanted (uprobes : List Uprobe) : Except LoadError (UInt64 → Option Bool) :=
  (uprobes.filter isWantedEntry).foldlM (fun map p => updateNoExist map p.address true)
    fun _ => none

/-- The calls of `setWantedRet`. -/
def loadWantedRet (uprobes : List Uprobe) (adaptive : Bool) :
    Except LoadError (UInt64 → Option UInt64) :=
  (uprobes.filter (isWantedRet adaptive)).foldlM
    (fun map p => updateNoExist map p.address (wantedEntry uprobes p.funcname)) fun _ => none

/-- The calls of `setArgRules`. -/
def loadArgRules (uprobes : List Uprobe) : Except LoadError (UInt64 → Option ArgRules) :=
  (uprobes.filter fun p => !p.fetchArgs.isEmpty).foldlM
    (fun map p => do
      let rules ← encodeArgs p.fetchArgs
      updateNoExist map p.address rules)
    fun _ => none

/-- `Load`. The three kinds of updates touch different maps, so that their order matters to
the error only. -/
def load (uprobes : List Uprobe) (adaptive : Bool) : Except LoadError Config := do
  let wanted ← loadWanted uprobes
  let wantedRet ← loadWantedRet uprobes adaptive
  let argRules ← loadArgRules uprobes
  return {
    fetchArgs := uprobes.any fun p => !p.fetchArgs.isEmpty
    adaptiveSampling := adaptive
    shouldTraceRip := fun ip => (wanted ip).isSome
    shouldTraceRet := wantedRet
    argRules := argRules }

/-! ## The loaded maps -/

theorem updateNoExist_ok {α : Type} {map map' : UInt64 → Option α} {key : UInt64} {value : α}
    (h : updateNoExist map key value = .ok map') :
    map key = none ∧ map' = Function.update map key (some value) := by
  unfold updateNoExist at h
  split at h
  · cases h
  · rename_i hkey
    cases h
    exact ⟨Option.not_isSome_iff_eq_none.mp hkey, rfl⟩

/-- A map filled from a list of probes holds the value of each of them and no other. -/
theorem foldlM_updateNoExist {α : Type} {value : Uprobe → α} (ps : List Uprobe)
    {map map' : UInt64 → Option α}
    (h : ps.foldlM (fun map p => updateNoExist map p.address (value p)) map = .ok map')
    (ip : UInt64) (v : α) :
    map' ip = some v ↔ map ip = some v ∨ ∃ p ∈ ps, p.address = ip ∧ value p = v := by
  induction ps generalizing map with
  | nil =>
    cases h
    simp
  | cons p ps ih =>
    rw [List.foldlM_cons] at h
    cases hu : updateNoExist map p.address (value p) with
    | error e =>
      rw [hu] at h
      cases h
    | ok map₁ =>
      rw [hu] at h
      obtain ⟨hnone, rfl⟩ := updateNoExist_ok hu
      rw [ih h]
      by_cases hip : ip = p.address
      · subst hip
        simp [hnone]
      · simp [hip, Ne.symm hip]

/-- A map filled with values that may be refused. -/
theorem foldlM_updateValue {α : Type} {value : Uprobe → Except LoadError α} (ps : List Uprobe)
    {map map' : UInt64 → Option α}
    (h : ps.foldlM (fun map p => do
      let v ← value p
      updateNoExist map p.address v) map = .ok map') :
    (∀ p ∈ ps, ∃ v, value p = .ok v) ∧ ∀ ip v,
      map' ip = some v ↔ map ip = some v ∨ ∃ p ∈ ps, p.address = ip ∧ value p = .ok v := by
  induction ps generalizing map with
  | nil =>
    cases h
    simp
  | cons p ps ih =>
    rw [List.foldlM_cons] at h
    cases hv : value p with
    | error e =>
      rw [hv] at h
      cases h
    | ok w =>
      rw [hv] at h
      change (updateNoExist map p.address w >>= _) = _ at h
      cases hu : updateNoExist map p.address w with
      | error e =>
        rw [hu] at h
        cases h
      | ok map₁ =>
        rw [hu] at h
        obtain ⟨hnone, rfl⟩ := updateNoExist_ok hu
        obtain ⟨hall, hmap⟩ := ih h
        refine ⟨List.forall_mem_cons.mpr ⟨⟨w, hv⟩, hall⟩, fun ip v => ?_⟩
        rw [hmap]
        by_cases hip : ip = p.address
        · subst hip
          simp [hnone, hv]
        · simp [hip, Ne.symm hip]

/-- The rules that `Load` stores are those of the probes, none of which is refused. -/
theorem loadArgRules_ok {uprobes : List Uprobe} {map : UInt64 → Option ArgRules}
    (h : loadArgRules uprobes = .ok map) :
    (∀ p ∈ uprobes, p.fetchArgs ≠ [] → ∃ rules, encodeArgs p.fetchArgs = .ok rules) ∧
      ∀ ip rules, map ip = some rules ↔
        ∃ p ∈ uprobes, p.fetchArgs ≠ [] ∧ p.address = ip ∧
          encodeArgs p.fetchArgs = .ok rules := by
  obtain ⟨hall, hmap⟩ := foldlM_updateValue _ h
  refine ⟨fun p hp hne => hall p (List.mem_filter.mpr ⟨hp, by simpa using hne⟩), ?_⟩
  intro ip rules
  rw [hmap ip rules]
  simp [and_assoc]

/-- What `Load` returns, map by map. -/
structure Loaded (uprobes : List Uprobe) (adaptive : Bool) (cfg : Config) : Prop where
  adaptiveSampling : cfg.adaptiveSampling = adaptive
  fetchArgs : cfg.fetchArgs = uprobes.any fun p => !p.fetchArgs.isEmpty
  shouldTraceRip : ∀ ip, cfg.shouldTraceRip ip = true ↔
    ∃ p ∈ uprobes, isWantedEntry p = true ∧ p.address = ip
  shouldTraceRet : ∀ ip entry, cfg.shouldTraceRet ip = some entry ↔
    ∃ p ∈ uprobes, isWantedRet adaptive p = true ∧ p.address = ip ∧
      wantedEntry uprobes p.funcname = entry
  argRules : loadArgRules uprobes = .ok cfg.argRules

theorem load_ok {uprobes : List Uprobe} {adaptive : Bool} {cfg : Config}
    (h : load uprobes adaptive = .ok cfg) : Loaded uprobes adaptive cfg := by
  unfold load at h
  cases hw : loadWanted uprobes with
  | error e => rw [hw] at h; cases h
  | ok wanted =>
    cases hr : loadWantedRet uprobes adaptive with
    | error e => rw [hw, hr] at h; cases h
    | ok wantedRet =>
      cases ha : loadArgRules uprobes with
      | error e => rw [hw, hr, ha] at h; cases h
      | ok argRules =>
        rw [hw, hr, ha] at h
        cases h
        refine ⟨rfl, rfl, fun ip => ?_, fun ip entry => ?_, ha⟩
        · have hmap := foldlM_updateNoExist _ hw ip true
          simp only [reduceCtorEq, false_or, List.mem_filter, and_true, and_assoc] at hmap
          rw [← hmap, Option.isSome_iff_exists]
          refine ⟨fun ⟨v, hv⟩ => ?_, fun hv => ⟨true, hv⟩⟩
          have hall := (foldlM_updateNoExist _ hw ip v).mp hv
          rcases hall with hall | ⟨p, hp, hip, htrue⟩
          · cases hall
          · rw [hv, htrue]
        · have hmap := foldlM_updateNoExist _ hr ip entry
          simpa only [reduceCtorEq, false_or, List.mem_filter, and_assoc] using hmap

/-! ## Distinct addresses -/

theorem encodeArg_ne_keyExists (a : Uprobe.FetchArg) : encodeArg a ≠ .error .keyExists := by
  intro h
  unfold encodeArg at h
  split at h
  · cases h
  · split at h <;> cases h

theorem mapM_encodeArg_ne_keyExists (args : List Uprobe.FetchArg) :
    args.mapM encodeArg ≠ .error .keyExists := by
  induction args with
  | nil => exact fun h => by cases h
  | cons a args ih =>
    rw [List.mapM_cons]
    cases ha : encodeArg a with
    | error e =>
      rintro h
      cases h
      exact encodeArg_ne_keyExists a ha
    | ok rule =>
      cases hargs : args.mapM encodeArg with
      | error e =>
        rintro h
        cases h
        exact ih hargs
      | ok rules => exact fun h => by cases h

theorem encodeArgs_ne_keyExists (args : List Uprobe.FetchArg) :
    encodeArgs args ≠ .error .keyExists := by
  rw [encodeArgs]
  split
  · exact fun h => by cases h
  · exact mapM_encodeArg_ne_keyExists args

/-- A map filled at distinct addresses meets no key twice. -/
theorem foldlM_ne_keyExists {α : Type} (value : Uprobe → Except LoadError α)
    (hvalue : ∀ p, value p ≠ .error .keyExists) (ps : List Uprobe) {map : UInt64 → Option α}
    (hnodup : (ps.map Uprobe.address).Nodup) (hmap : ∀ p ∈ ps, map p.address = none) :
    ps.foldlM (fun map p => do
      let v ← value p
      updateNoExist map p.address v) map ≠ .error .keyExists := by
  induction ps generalizing map with
  | nil => exact fun h => by cases h
  | cons p ps ih =>
    obtain ⟨hp, hps⟩ := List.nodup_cons.mp hnodup
    rw [List.foldlM_cons]
    cases hv : value p with
    | error e =>
      rintro h
      cases h
      exact hvalue p hv
    | ok v =>
      have hnone : updateNoExist map p.address v =
          .ok (Function.update map p.address (some v)) := by
        rw [updateNoExist, hmap p List.mem_cons_self]
        rfl
      change (updateNoExist map p.address v >>= _) ≠ _
      rw [hnone]
      refine ih hps fun q hq => ?_
      have hne : q.address ≠ p.address := fun heq => hp (heq ▸ List.mem_map_of_mem hq)
      rw [Function.update_of_ne hne]
      exact hmap q (List.mem_cons_of_mem _ hq)

/-- `Load` meets no key twice when the addresses are distinct, map by map. -/
theorem load_ne_keyExists {uprobes : List Uprobe} {adaptive : Bool}
    (hargs : ((uprobes.filter fun p => !p.fetchArgs.isEmpty).map Uprobe.address).Nodup)
    (hrip : ((uprobes.filter isWantedEntry).map Uprobe.address).Nodup)
    (hret : ((uprobes.filter (isWantedRet adaptive)).map Uprobe.address).Nodup) :
    load uprobes adaptive ≠ .error .keyExists := by
  intro h
  unfold load at h
  cases hw : loadWanted uprobes with
  | error e =>
    rw [hw] at h
    cases h
    exact foldlM_ne_keyExists (fun _ => .ok true) (fun _ h => by cases h) _ hrip
      (fun _ _ => rfl) hw
  | ok wanted =>
    cases hr : loadWantedRet uprobes adaptive with
    | error e =>
      rw [hw, hr] at h
      cases h
      exact foldlM_ne_keyExists (fun p => .ok (wantedEntry uprobes p.funcname))
        (fun _ h => by cases h) _ hret (fun _ _ => rfl) hr
    | ok wantedRet =>
      cases ha : loadArgRules uprobes with
      | error e =>
        rw [hw, hr, ha] at h
        cases h
        exact foldlM_ne_keyExists (fun p => encodeArgs p.fetchArgs)
          (fun p => encodeArgs_ne_keyExists p.fetchArgs) _ hargs
          (fun _ _ => rfl) ha
      | ok argRules =>
        rw [hw, hr, ha] at h
        cases h

end GoFtrace.Bpf
