import GoFtrace.Tracing.Parser

/-!
# Probes and their keys

The maps that `Load` fills are keyed by the address of a probe, the map that `New` fills by
its name and offset. When every probe is found again from its own address, no two keys meet.

* `getUprobe_eq`: what a lookup by address finds.
* `parse_identifiable`: when every probe is identifiable.
* `identity_shadowed`: a function that only returns.
-/

namespace GoFtrace.Tracing

open EventManager

/-! ## Keys -/

/-- A probe of a function, not the one of `runtime.goexit1`. -/
def isFunctionProbe (p : GoFtrace.Uprobe) : Bool := p.location != .atGoroutineExit

/-- The key `Funcname+RelOffset` of `New`; the number ends at the last `+`. -/
def probeKey (p : GoFtrace.Uprobe) : String × UInt64 := (p.funcname, p.relOffset)

/-- The keys of the probes are distinct, map by map, and an event of a probe finds it. -/
structure Identifiable (cfg : Config) : Prop where
  argRules : ((cfg.uprobes.filter fun p => !p.fetchArgs.isEmpty).map Uprobe.address).Nodup
  traceRip : ((cfg.uprobes.filter Bpf.isWantedEntry).map Uprobe.address).Nodup
  traceRet : ((cfg.uprobes.filter (Bpf.isWantedRet true)).map Uprobe.address).Nodup
  loads : ∀ adaptive, Bpf.load cfg.uprobes adaptive ≠ .error .keyExists
  keys : ((cfg.uprobes.filter isFunctionProbe).map probeKey).Nodup
  found : ∀ p ∈ cfg.uprobes, isFunctionProbe p = true → cfg.getUprobe p.address = some p

/-! ## Functions -/

namespace TracedFunc

/-- The offsets of the probes of a function. -/
def offsets (f : TracedFunc) : List UInt64 := 0 :: f.rets

end TracedFunc

/-- The functions that are probed. -/
def probed (fns : List TracedFunc) : List TracedFunc := fns.filter fun f => !f.rets.isEmpty

/-- The names that a lookup at offset 0 can end at. -/
def probedNames (fns : List TracedFunc) : List String :=
  "runtime.goexit1" :: (probed fns).map TracedFunc.name

/-- The first symbol at an address, in the order of the lookup, that names a probe. -/
def nearestName (symbols : List Elf.Symbol) (fns : List TracedFunc) (addr : UInt64) :
    Option String :=
  ((Elf.symbolsAt symbols addr).reverse.find? fun s => s.name ∈ probedNames fns).map Elf.Symbol.name

/-- Nothing comes between a function and its probes, and nothing is taken for another. -/
structure Apart (symbols : List Elf.Symbol) (fns : List TracedFunc) : Prop where
  /-- No name is probed twice. -/
  names : ((probed fns).map TracedFunc.name).Nodup
  /-- No RET at the entry, and none twice. -/
  offsets : ∀ f ∈ probed fns, f.offsets.Nodup
  /-- The symbols next below a probe are at the entry of its function. -/
  near : ∀ f ∈ probed fns, ∀ off ∈ f.offsets, f.entry + off ≠ 0 ∧ f.entry ≤ f.entry + off ∧
    ∀ s ∈ symbols, s.value ≤ f.entry + off → s.value ≤ f.entry
  /-- Of the symbols at the entry the lookup meets the own name first. -/
  alone : ∀ f ∈ probed fns, nearestName symbols fns f.entry = some f.name

/-! ## The probes of a list of functions -/

theorem mem_probes {f : TracedFunc} {p : GoFtrace.Uprobe} (h : p ∈ f.probes) :
    f.rets ≠ [] ∧ isFunctionProbe p = true ∧ p.funcname = f.name ∧ p.relOffset ∈ f.offsets ∧
      p.address = f.entry + p.relOffset := by
  unfold TracedFunc.probes at h
  split at h
  · cases h
  · rename_i hrets
    refine ⟨by simpa using hrets, ?_⟩
    rcases List.mem_cons.mp h with rfl | h
    · exact ⟨rfl, rfl, List.mem_cons_self, (UInt64.add_zero _).symm⟩
    · obtain ⟨off, hoff, rfl⟩ := List.mem_map.mp h
      exact ⟨rfl, rfl, List.mem_cons_of_mem _ hoff, rfl⟩

theorem probes_keys {f : TracedFunc} (h : f.rets ≠ []) :
    f.probes.map probeKey = f.offsets.map fun off => (f.name, off) := by
  rw [TracedFunc.probes, if_neg (by simpa using h), List.map_cons, List.map_map,
    TracedFunc.offsets, List.map_cons]
  rfl

/-- The probe of a function at one of its offsets. -/
theorem exists_probe {f : TracedFunc} (h : f.rets ≠ []) (off : UInt64) (hoff : off ∈ f.offsets) :
    ∃ p ∈ f.probes, p.funcname = f.name ∧ p.relOffset = off := by
  have hmem : (f.name, off) ∈ f.probes.map probeKey := by
    rw [probes_keys h]
    exact List.mem_map_of_mem hoff
  obtain ⟨p, hp, hkey⟩ := List.mem_map.mp hmem
  exact ⟨p, hp, congrArg Prod.fst hkey, congrArg Prod.snd hkey⟩

section
variable {fns : List TracedFunc}

theorem mem_probed {f : TracedFunc} : f ∈ probed fns ↔ f ∈ fns ∧ f.rets ≠ [] := by
  simp [probed]

theorem mem_functionProbes {p : GoFtrace.Uprobe} :
    p ∈ fns.flatMap TracedFunc.probes ↔ ∃ f ∈ probed fns, p ∈ f.probes := by
  rw [List.mem_flatMap]
  constructor
  · rintro ⟨f, hf, hp⟩
    exact ⟨f, mem_probed.mpr ⟨hf, (mem_probes hp).1⟩, hp⟩
  · rintro ⟨f, hf, hp⟩
    exact ⟨f, (mem_probed.mp hf).1, hp⟩

theorem filter_parse (goexit : UInt64) :
    (parse goexit fns).filter isFunctionProbe = fns.flatMap TracedFunc.probes := by
  rw [parse, List.filter_cons_of_neg (by simp [isFunctionProbe]), List.filter_eq_self]
  intro p hp
  obtain ⟨f, -, hp⟩ := mem_functionProbes.mp hp
  exact (mem_probes hp).2.1

theorem probed_cons_neg {f : TracedFunc} (h : f.rets = []) : probed (f :: fns) = probed fns :=
  List.filter_cons_of_neg (by simp [h])

theorem probed_cons_pos {f : TracedFunc} (h : f.rets ≠ []) :
    probed (f :: fns) = f :: probed fns := List.filter_cons_of_pos (by simpa using h)

theorem functionKeys :
    (fns.flatMap TracedFunc.probes).map probeKey =
      (probed fns).flatMap fun f => f.offsets.map fun off => (f.name, off) := by
  induction fns with
  | nil => rfl
  | cons f fns ih =>
    rw [List.flatMap_cons, List.map_append, ih]
    by_cases h : f.rets = []
    · rw [probed_cons_neg h, TracedFunc.probes, if_pos (by simp [h])]
      rfl
    · rw [probed_cons_pos h, List.flatMap_cons, probes_keys h]

/-- The keys are distinct exactly when the names are, and the offsets of each function. -/
theorem keys_nodup_iff :
    ((fns.flatMap TracedFunc.probes).map probeKey).Nodup ↔
      ((probed fns).map TracedFunc.name).Nodup ∧ ∀ f ∈ probed fns, f.offsets.Nodup := by
  have hpair : ∀ f : TracedFunc, (f.offsets.map fun off => (f.name, off)).Nodup ↔ f.offsets.Nodup :=
    fun f => List.nodup_map_iff fun a b h => (Prod.mk.inj h).2
  have hdisjoint : ∀ f g : TracedFunc,
      List.Disjoint (f.offsets.map fun off => (f.name, off))
        (g.offsets.map fun off => (g.name, off)) ↔ f.name ≠ g.name := by
    intro f g
    constructor
    · intro h heq
      refine h (a := (f.name, 0)) (List.mem_map_of_mem List.mem_cons_self) ?_
      rw [heq]
      exact List.mem_map_of_mem List.mem_cons_self
    · intro hne p hf hg
      obtain ⟨off, -, rfl⟩ := List.mem_map.mp hf
      obtain ⟨off', -, heq⟩ := List.mem_map.mp hg
      exact hne (congrArg Prod.fst heq).symm
  have hnames : ((probed fns).map TracedFunc.name).Nodup ↔
      (probed fns).Pairwise fun f g => f.name ≠ g.name := List.pairwise_map
  rw [functionKeys, List.nodup_flatMap, hnames, and_comm]
  exact and_congr (List.Pairwise.iff fun f g => hdisjoint f g) (forall₂_congr fun f _ => hpair f)

end

/-! ## Lookups -/

/-- A key that occurs once picks its own element. -/
theorem filter_key {α β : Type} [DecidableEq β] {key : α → β} {l : List α}
    (hnodup : (l.map key).Nodup) {a : α} (ha : a ∈ l) :
    (l.filter fun b => key b = key a) = [a] := by
  induction l with
  | nil => cases ha
  | cons b l ih =>
    obtain ⟨hb, hl⟩ := List.nodup_cons.mp hnodup
    rcases List.mem_cons.mp ha with rfl | ha
    · rw [List.filter_cons_of_pos (by simp), List.filter_eq_nil_iff.mpr]
      intro c hc heq
      exact hb (List.mem_map.mpr ⟨c, hc, of_decide_eq_true heq⟩)
    · rw [List.filter_cons_of_neg, ih hl ha]
      intro heq
      exact hb (List.mem_map.mpr ⟨a, ha, (of_decide_eq_true heq).symm⟩)

section
variable {cfg : Config} {goexit : UInt64} {fns : List TracedFunc}

theorem mem_parse {p : GoFtrace.Uprobe} (hp : p ∈ parse goexit fns) :
    (p.funcname = "runtime.goexit1" ∧ p.relOffset = 0 ∧ isFunctionProbe p = false) ∨
      p ∈ fns.flatMap TracedFunc.probes := by
  rcases List.mem_cons.mp hp with rfl | hp
  · exact .inl ⟨rfl, rfl, rfl⟩
  · exact .inr hp

theorem uprobeAt_name (hparse : cfg.uprobes = parse goexit fns) {name : String} {off : UInt64}
    {p : GoFtrace.Uprobe} (h : cfg.uprobeAt name off = some p) :
    p ∈ cfg.uprobes ∧ p.funcname = name ∧ p.relOffset = off ∧ name ∈ probedNames fns := by
  obtain ⟨hp, hkey⟩ := List.mem_filter.mp (List.mem_of_getLast? h)
  simp only [Bool.and_eq_true, beq_iff_eq] at hkey
  refine ⟨hp, hkey.1, hkey.2, ?_⟩
  rw [hparse] at hp
  rcases mem_parse hp with ⟨hname, -, -⟩ | hp
  · rw [← hkey.1, hname]
    exact List.mem_cons_self
  · obtain ⟨f, hf, hp⟩ := mem_functionProbes.mp hp
    rw [← hkey.1, (mem_probes hp).2.2.1]
    exact List.mem_cons_of_mem _ (List.mem_map_of_mem hf)

/-- Every probed name has a probe at offset 0. -/
theorem uprobeAt_zero (hparse : cfg.uprobes = parse goexit fns) {name : String}
    (h : name ∈ probedNames fns) : (cfg.uprobeAt name 0).isSome = true := by
  have hex : ∃ p ∈ cfg.uprobes, p.funcname = name ∧ p.relOffset = 0 := by
    rw [hparse]
    rcases List.mem_cons.mp h with rfl | h
    · exact ⟨_, List.mem_cons_self, rfl, rfl⟩
    · obtain ⟨f, hf, rfl⟩ := List.mem_map.mp h
      obtain ⟨p, hp, hkey⟩ := exists_probe (mem_probed.mp hf).2 0 List.mem_cons_self
      exact ⟨p, List.mem_cons_of_mem _ (mem_functionProbes.mpr ⟨f, hf, hp⟩), hkey⟩
  obtain ⟨p, hp, hname, hoff⟩ := hex
  have hmem : p ∈ cfg.uprobes.filter fun u => u.funcname == name && u.relOffset == 0 :=
    List.mem_filter.mpr ⟨hp, by simp [hname, hoff]⟩
  rw [Config.uprobeAt, List.getLast?_isSome]
  exact List.ne_nil_of_mem hmem

/-- A probe of a function is stored last under its key. -/
theorem uprobeAt_own (hparse : cfg.uprobes = parse goexit fns)
    (hkeys : ((fns.flatMap TracedFunc.probes).map probeKey).Nodup) {p : GoFtrace.Uprobe}
    (hp : p ∈ fns.flatMap TracedFunc.probes) : cfg.uprobeAt p.funcname p.relOffset = some p := by
  have hown : ((fns.flatMap TracedFunc.probes).filter fun u =>
      u.funcname == p.funcname && u.relOffset == p.relOffset) = [p] := by
    rw [← filter_key hkeys hp]
    refine List.filter_congr fun u _ => ?_
    rw [Bool.eq_iff_iff]
    simp [probeKey]
  rw [Config.uprobeAt, hparse, parse, List.filter_cons]
  split
  · rw [hown]
    rfl
  · rw [hown]
    rfl

theorem getUprobe_eq (hsorted : Elf.Sorted cfg.symbols) {addr : UInt64} (haddr : addr ≠ 0) :
    cfg.getUprobe addr = (Elf.atOrBelow cfg.symbols addr).getLast?.bind fun sym =>
      (Elf.symbolsAt cfg.symbols sym.value).reverse.findSome? fun s =>
        cfg.uprobeAt s.name (addr - sym.value) := by
  rw [Config.getUprobe, Elf.resolveAddress_eq hsorted haddr]
  cases (Elf.atOrBelow cfg.symbols addr).getLast? with
  | none => rfl
  | some sym => rfl

end

/-! ## When the probes are identifiable -/

theorem findSome?_of_find? {α β : Type} {q : α → Bool} {g : α → Option β}
    (hq : ∀ a b, g a = some b → q a = true) {l : List α} {a : α} {b : β}
    (h : l.find? q = some a) (hg : g a = some b) : l.findSome? g = some b := by
  induction l with
  | nil => cases h
  | cons c l ih =>
    cases hc : q c with
    | true =>
      rw [List.find?_cons_of_pos hc, Option.some.injEq] at h
      rw [h, List.findSome?_cons, hg]
    | false =>
      rw [List.find?_cons_of_neg (by simp [hc])] at h
      have hnone : g c = none := by
        cases hgc : g c with
        | none => rfl
        | some d => rw [hq c d hgc] at hc; cases hc
      rw [List.findSome?_cons, hnone]
      exact ih h

theorem find?_of_findSome? {α β : Type} {q : α → Bool} {g : α → Option β}
    (hq : ∀ a, (g a).isSome = q a) {l : List α} {b : β} (h : l.findSome? g = some b) :
    ∃ a, l.find? q = some a ∧ g a = some b := by
  induction l with
  | nil => cases h
  | cons c l ih =>
    rw [List.findSome?_cons] at h
    cases hgc : g c with
    | some d =>
      rw [hgc, Option.some.injEq] at h
      exact ⟨c, List.find?_cons_of_pos (by rw [← hq, hgc]; rfl), by rw [hgc, h]⟩
    | none =>
      rw [hgc] at h
      obtain ⟨a, ha, hga⟩ := ih h
      exact ⟨a, by rw [List.find?_cons_of_neg (by rw [← hq, hgc]; simp), ha], hga⟩

section
variable {cfg : Config} {goexit : UInt64} {fns : List TracedFunc}

theorem found_of_apart (hsorted : Elf.Sorted cfg.symbols)
    (hparse : cfg.uprobes = parse goexit fns) (hapart : Apart cfg.symbols fns)
    {p : GoFtrace.Uprobe} (hp : p ∈ fns.flatMap TracedFunc.probes) :
    cfg.getUprobe p.address = some p := by
  have hown := uprobeAt_own hparse (keys_nodup_iff.mpr ⟨hapart.names, hapart.offsets⟩) hp
  obtain ⟨f, hf, hpf⟩ := mem_functionProbes.mp hp
  obtain ⟨-, -, hname, hoff, haddr⟩ := mem_probes hpf
  obtain ⟨hne, hle, hnear⟩ := hapart.near f hf p.relOffset hoff
  obtain ⟨s, hfind, hsname⟩ := Option.map_eq_some_iff.mp (hapart.alone f hf)
  have hs := List.mem_filter.mp (List.mem_reverse.mp (List.mem_of_find?_eq_some hfind))
  have hval : s.value = f.entry := beq_iff_eq.mp hs.2
  -- the symbol of the function is the last one that is not above the probe
  have hbelow : s ∈ Elf.atOrBelow cfg.symbols (f.entry + p.relOffset) :=
    List.mem_filter.mpr ⟨hs.1, decide_eq_true (hval ▸ hle)⟩
  obtain ⟨sym, hsym⟩ := Option.isSome_iff_exists.mp
    (List.getLast?_isSome.mpr (List.ne_nil_of_mem hbelow))
  obtain ⟨hmem, hsymle, hmax⟩ := Elf.last_atOrBelow hsorted hsym
  have hentry : sym.value = f.entry := UInt64.le_antisymm (hnear sym hmem hsymle)
    (hval ▸ hmax s hs.1 (hval ▸ hle))
  rw [haddr, getUprobe_eq hsorted hne, hsym, Option.bind_some, hentry]
  have hsub : f.entry + p.relOffset - f.entry = p.relOffset := by
    rw [UInt64.add_comm, UInt64.add_sub_cancel]
  rw [hsub]
  refine findSome?_of_find? (fun a b hb => ?_) hfind ?_
  · exact decide_eq_true (uprobeAt_name hparse hb).2.2.2
  · rw [hsname, ← hname, hown]

/-- What it takes to find a probe at an offset of a function. -/
theorem near_of_found (hsorted : Elf.Sorted cfg.symbols)
    (hparse : cfg.uprobes = parse goexit fns) {f : TracedFunc} {p : GoFtrace.Uprobe}
    (hp : p ∈ f.probes) (hfound : cfg.getUprobe p.address = some p) :
    (f.entry + p.relOffset ≠ 0 ∧ f.entry ≤ f.entry + p.relOffset ∧
      ∀ s ∈ cfg.symbols, s.value ≤ f.entry + p.relOffset → s.value ≤ f.entry) ∧
      ((Elf.symbolsAt cfg.symbols f.entry).reverse.findSome? fun s =>
        cfg.uprobeAt s.name p.relOffset) = some p := by
  rw [(mem_probes hp).2.2.2.2] at hfound
  have hne : f.entry + p.relOffset ≠ 0 := by
    intro hzero
    rw [hzero] at hfound
    cases hfound
  rw [getUprobe_eq hsorted hne] at hfound
  obtain ⟨sym, hsym, hsome⟩ := Option.bind_eq_some_iff.mp hfound
  obtain ⟨-, hsymle, hmax⟩ := Elf.last_atOrBelow hsorted hsym
  obtain ⟨s, -, hs⟩ := List.exists_of_findSome?_eq_some hsome
  have hoff : p.relOffset = f.entry + p.relOffset - sym.value := (uprobeAt_name hparse hs).2.2.1
  have hentry : sym.value = f.entry := by
    have hsum : p.relOffset + sym.value = f.entry + p.relOffset := by
      rw [congrArg (· + sym.value) hoff, UInt64.sub_add_cancel]
    rw [UInt64.add_comm] at hsum
    exact (UInt64.add_left_inj _).mp hsum
  rw [← hoff, hentry] at hsome
  rw [hentry] at hsymle hmax
  exact ⟨⟨hne, hsymle, hmax⟩, hsome⟩

theorem apart_of_found (hsorted : Elf.Sorted cfg.symbols)
    (hparse : cfg.uprobes = parse goexit fns)
    (hkeys : ((fns.flatMap TracedFunc.probes).map probeKey).Nodup)
    (hfound : ∀ p ∈ fns.flatMap TracedFunc.probes, cfg.getUprobe p.address = some p) :
    Apart cfg.symbols fns := by
  obtain ⟨hnames, hoffsets⟩ := keys_nodup_iff.mp hkeys
  refine ⟨hnames, hoffsets, fun f hf off hoff => ?_, fun f hf => ?_⟩
  · obtain ⟨p, hp, -, rfl⟩ := exists_probe (mem_probed.mp hf).2 off hoff
    exact (near_of_found hsorted hparse hp (hfound p (mem_functionProbes.mpr ⟨f, hf, hp⟩))).1
  · obtain ⟨p, hp, hname, hzero⟩ := exists_probe (mem_probed.mp hf).2 0 List.mem_cons_self
    have hsome :=
      (near_of_found hsorted hparse hp (hfound p (mem_functionProbes.mpr ⟨f, hf, hp⟩))).2
    rw [hzero] at hsome
    have hprobed : ∀ s : Elf.Symbol,
        (cfg.uprobeAt s.name 0).isSome = decide (s.name ∈ probedNames fns) := by
      intro s
      rw [Bool.eq_iff_iff, decide_eq_true_eq]
      refine ⟨fun h => ?_, uprobeAt_zero hparse⟩
      obtain ⟨q, hq⟩ := Option.isSome_iff_exists.mp h
      exact (uprobeAt_name hparse hq).2.2.2
    obtain ⟨s, hfind, hs⟩ := find?_of_findSome? hprobed hsome
    rw [nearestName, hfind, Option.map_some, ← (uprobeAt_name hparse hs).2.1, hname]

/-- Distinct keys and probes that are found have distinct addresses. -/
theorem addresses_nodup
    (hkeys : ((fns.flatMap TracedFunc.probes).map probeKey).Nodup)
    (hfound : ∀ p ∈ fns.flatMap TracedFunc.probes, cfg.getUprobe p.address = some p) :
    ((fns.flatMap TracedFunc.probes).map Uprobe.address).Nodup := by
  have hpair := List.pairwise_map.mp hkeys
  refine List.pairwise_map.mpr (hpair.imp_of_mem fun {p q} hp hq hne heq => ?_)
  have hsame : some p = some q := by rw [← hfound p hp, heq, hfound q hq]
  rw [Option.some.inj hsame] at hne
  exact hne rfl

theorem filter_parse_sublist {q : GoFtrace.Uprobe → Bool}
    (hq : ∀ p, isFunctionProbe p = false → p.fetchArgs = [] → q p = false) :
    ((parse goexit fns).filter q).Sublist (fns.flatMap TracedFunc.probes) := by
  rw [parse, List.filter_cons_of_neg]
  · exact List.filter_sublist
  · exact Bool.eq_false_iff.mp (hq _ rfl rfl)

theorem identifiable_iff (hsorted : Elf.Sorted cfg.symbols)
    (hparse : cfg.uprobes = parse goexit fns) : Identifiable cfg ↔ Apart cfg.symbols fns := by
  constructor
  · intro h
    have hkeys := h.keys
    rw [hparse, filter_parse] at hkeys
    refine apart_of_found hsorted hparse hkeys fun p hp => ?_
    rw [← filter_parse goexit, List.mem_filter] at hp
    exact h.found p (hparse ▸ hp.1) hp.2
  · intro h
    have hkeys := keys_nodup_iff.mpr ⟨h.names, h.offsets⟩
    have hfound := fun p hp => found_of_apart hsorted hparse h (p := p) hp
    have haddr := addresses_nodup hkeys hfound
    have hsub : ∀ q : GoFtrace.Uprobe → Bool,
        (∀ p, isFunctionProbe p = false → p.fetchArgs = [] → q p = false) →
        ((cfg.uprobes.filter q).map Uprobe.address).Nodup := by
      intro q hq
      rw [hparse]
      exact haddr.sublist ((filter_parse_sublist hq).map _)
    have hargs := hsub (fun p => !p.fetchArgs.isEmpty) fun p _ hnil => by simp [hnil]
    have hlocation : ∀ p : GoFtrace.Uprobe, isFunctionProbe p = false →
        p.location = .atGoroutineExit := fun p hp => by simpa [isFunctionProbe] using hp
    have hrip := hsub Bpf.isWantedEntry fun p hp _ => by
      simp [Bpf.isWantedEntry, hlocation p hp]
    have hret := fun adaptive => hsub (Bpf.isWantedRet adaptive) fun p hp _ => by
      simp [Bpf.isWantedRet, hlocation p hp]
    refine ⟨hargs, hrip, hret true, fun adaptive => ?_, ?_, fun p hp hfunction => ?_⟩
    · exact Bpf.load_ne_keyExists hargs hrip (hret adaptive)
    · rw [hparse, filter_parse]
      exact hkeys
    · refine hfound p ?_
      rw [← filter_parse goexit]
      exact List.mem_filter.mpr ⟨hparse ▸ hp, hfunction⟩

end

/-! ## The parser's list -/

/-- A function without its rules. -/
def TracedFunc.site (f : TracedFunc) : TracedFunc :=
  { name := f.name, entry := f.entry, rets := f.rets, wanted := f.wanted }

theorem probed_site (fns : List TracedFunc) :
    probed (fns.map TracedFunc.site) = (probed fns).map TracedFunc.site := List.filter_map

/-- The rules have no part in it. -/
theorem apart_site {symbols : List Elf.Symbol} {fns : List TracedFunc} :
    Apart symbols (fns.map TracedFunc.site) ↔ Apart symbols fns := by
  have hnames : (probed (fns.map TracedFunc.site)).map TracedFunc.name =
      (probed fns).map TracedFunc.name := by
    rw [probed_site, List.map_map]
    rfl
  have hnearest : nearestName symbols (fns.map TracedFunc.site) = nearestName symbols fns := by
    funext addr
    rw [nearestName, nearestName, probedNames, probedNames, hnames]
  have hall : ∀ {P : TracedFunc → Prop}, (∀ f, P f.site ↔ P f) →
      ((∀ f ∈ probed (fns.map TracedFunc.site), P f) ↔ ∀ f ∈ probed fns, P f) := by
    intro P hP
    rw [probed_site, List.forall_mem_map]
    exact forall₂_congr fun f _ => hP f
  constructor
  · rintro ⟨h₁, h₂, h₃, h₄⟩
    exact ⟨hnames ▸ h₁, (hall fun f => Iff.rfl).mp h₂, (hall fun f => Iff.rfl).mp h₃,
      (hall fun f => Iff.rfl).mp (hnearest ▸ h₄)⟩
  · rintro ⟨h₁, h₂, h₃, h₄⟩
    exact ⟨hnames ▸ h₁, (hall fun f => Iff.rfl).mpr h₂, (hall fun f => Iff.rfl).mpr h₃,
      hnearest ▸ (hall fun f => Iff.rfl).mpr h₄⟩

/-- The functions that `Parse` attaches to: where they start and where they return. -/
def Binary.functions (b : Binary) (opts : ParseOptions) : List TracedFunc :=
  (b.attachFuncs opts).filterMap fun name => (b.resolveSymbol name).map fun sym =>
    b.tracedFunc opts { fetchArgs := fun _ => [], retFetchArgs := fun _ => [] } name sym

theorem mapM_lookup {b : Binary} {opts : ParseOptions} {f : Fetches} {names : List String}
    {fns : List TracedFunc}
    (h : (names.mapM fun name => do
      let sym ← b.lookup name
      return b.tracedFunc opts f name sym) = .ok fns) :
    fns.map TracedFunc.site = names.filterMap fun name => (b.resolveSymbol name).map fun sym =>
      b.tracedFunc opts { fetchArgs := fun _ => [], retFetchArgs := fun _ => [] } name sym := by
  induction names generalizing fns with
  | nil =>
    cases h
    rfl
  | cons name names ih =>
    rw [List.mapM_cons] at h
    cases hsym : b.resolveSymbol name with
    | none =>
      rw [Binary.lookup, hsym] at h
      cases h
    | some sym =>
      rw [Binary.lookup, hsym] at h
      cases hrest : names.mapM fun name => do
          let sym ← b.lookup name
          return b.tracedFunc opts f name sym with
      | error e =>
        rw [hrest] at h
        cases h
      | ok rest =>
        rw [hrest] at h
        cases h
        rw [List.filterMap_cons, hsym, List.map_cons, ih hrest]
        rfl

theorem parse_ok {b : Binary} {opts : ParseOptions} {uprobes : List GoFtrace.Uprobe}
    (h : b.parse opts = .ok uprobes) :
    ∃ goexit fns, uprobes = parse goexit fns ∧ fns.map TracedFunc.site = b.functions opts := by
  unfold Binary.parse at h
  cases hargs : parseRules opts.fetchFuncArgs with
  | error e => rw [hargs] at h; cases h
  | ok fetchArgs =>
    cases hrets : parseRules opts.retFetchFuncArgs with
    | error e => rw [hargs, hrets] at h; cases h
    | ok retFetchArgs =>
      rw [hargs, hrets] at h
      cases hgoexit : b.lookup "runtime.goexit1" with
      | error e =>
        rw [hgoexit] at h
        cases h
      | ok goexit =>
        rw [hgoexit] at h
        cases hfns : (b.attachFuncs opts).mapM fun name => do
            let sym ← b.lookup name
            return b.tracedFunc opts (fillAutoFetch b opts
              { fetchArgs := rulesOf fetchArgs, retFetchArgs := rulesOf retFetchArgs }) name sym with
        | error e =>
          simp only [bind, Except.bind] at h hfns
          rw [hfns] at h
          cases h
        | ok fns =>
          simp only [bind, Except.bind] at h hfns
          rw [hfns] at h
          cases h
          exact ⟨_, fns, rfl, mapM_lookup hfns⟩

/-- Every probe is identifiable exactly when the functions are apart. -/
theorem parse_identifiable {b : Binary} {opts : ParseOptions} {uprobes : List GoFtrace.Uprobe}
    (h : b.parse opts = .ok uprobes) (cfg : Config) :
    Identifiable { cfg with symbols := b.symbols, uprobes := uprobes } ↔
      Apart b.symbols (b.functions opts) := by
  obtain ⟨goexit, fns, rfl, hfns⟩ := parse_ok h
  rw [← hfns, apart_site]
  exact identifiable_iff b.sorted rfl

/-! ## A function that only returns -/

/-- `id` at 16, with RET instructions at the given offsets in the file. -/
def sampleBinary (rets : List UInt64) : Binary :=
  { rows := [{ name := "runtime.goexit1", value := 8 }, { name := "id", value := 16 }]
    sorted := by simp [Elf.Sorted]
    funcRetOffsets := fun _ => some rets }

/-- The argument and the result of `id` are fetched. -/
def sampleOptions : ParseOptions :=
  { funcNames := ["id"]
    fetchFuncArgs := [("id", [{ varname := "x", expr := "(%ax):u64" }])]
    retFetchFuncArgs := [("id", [{ varname := "r", expr := "(%ax):u64" }])] }

/-- The functions of the sample. -/
def sampleFunctions (rets : List UInt64) : List TracedFunc :=
  [{ name := "id", entry := 16, rets := rets, wanted := true
     fetchArgs := [{ varname := "x", type := "u64", size := 8, rules := [.register (some .ax)] }]
     retFetchArgs :=
      [{ varname := "r", type := "u64", size := 8, rules := [.register (some .ax)] }] }]

/-- A probe at the RET of `id` is stored over the one at its entry. -/
theorem identity_shadowed :
    (sampleBinary [16]).parse sampleOptions = .ok (parse 8 (sampleFunctions [0])) ∧
      Bpf.load (parse 8 (sampleFunctions [0])) false = .error .keyExists ∧
      ¬ Identifiable { sampleConfig false with
        symbols := (sampleBinary [16]).symbols, uprobes := parse 8 (sampleFunctions [0]) } := by
  have hload : Bpf.load (parse 8 (sampleFunctions [0])) false = .error .keyExists := by
    with_unfolding_all rfl
  exact ⟨by with_unfolding_all rfl, hload, fun h => h.loads false hload⟩

theorem parse_identifiable_id :
    Identifiable { sampleConfig false with
        symbols := (sampleBinary [20]).symbols, uprobes := parse 8 (sampleFunctions [4]) } ↔
      Apart (sampleBinary [20]).symbols ((sampleBinary [20]).functions sampleOptions) :=
  parse_identifiable (by with_unfolding_all rfl) (sampleConfig false)

/-- With a RET four bytes on, the probes of `id` are identifiable. -/
example : Apart (sampleBinary [20]).symbols (sampleFunctions [4]) where
  names := by simp [sampleFunctions, probed]
  offsets := by
    simp only [sampleFunctions, probed, TracedFunc.offsets]
    decide
  near := by
    simp [sampleFunctions, probed, TracedFunc.offsets, sampleBinary, Binary.symbols]
  alone f hf := by
    obtain rfl : f = _ := List.mem_singleton.mp hf
    with_unfolding_all rfl

end GoFtrace.Tracing
