import GoFtrace.Bpf.Rules
import GoFtrace.Lib.Record
import GoFtrace.Lib.Traverse

/-!
# Structs on both sides

The structs that `internal/bpf/ftrace.c` shares with `internal/bpf/bpf.go`, and the Go types of
`goftrace_bpfel_x86.go` that stand for them. The kernel lays a struct out with its alignments;
Go reads and writes the fields one after another.

* `Crosses.of_explicit`: a Go type that has the gaps of the struct as blank fields.
* `structs_cross`: events, rules, recipes and the configuration are read as they were written.
-/

namespace GoFtrace.Bpf

open Lib (WireType WireFields Fits loads)

/-! ## The structs of the programs -/

def u8 : WireType := .int 1
def u16 : WireType := .int 2
def u32 : WireType := .int 4
def u64 : WireType := .int 8

/-- `struct arg_data`. -/
def argDataStruct : WireType :=
  .struct <| .cons (.array maxDataSize u8) <| .cons u8 <| .cons u8 <| .blank 6 .nil

/-- `struct event`. -/
def eventStruct : WireType :=
  .struct <| .cons u64 <| .cons u64 <| .cons u64 <| .cons u64 <| .cons u64 <| .cons u64 <|
    .cons u32 <| .cons u32 <| .cons u8 <| .cons u8 <| .cons u8 <| .blank 1 <|
    .cons (.array maxArgs argDataStruct) .nil

/-- `struct arg_rule`. -/
def argRuleStruct : WireType :=
  .struct <| .cons u8 <| .cons u8 <| .cons u8 <| .cons u8 <| .cons (.array 8 u16) <|
    .cons (.array 8 u8) <| .cons u8 <| .cons u8 <| .cons u8 .nil

/-- `struct arg_rules`. -/
def argRulesStruct : WireType := .struct <| .cons u8 <| .cons (.array 8 argRuleStruct) .nil

/-- `struct rel_rule`. -/
def relRuleStruct : WireType :=
  .struct <| .cons u8 <| .cons u8 <| .cons u8 <| .blank 1 <| .cons (.array 8 u16) <|
    .cons (.array 8 u8) .nil

/-- `struct type_recipe`. -/
def typeRecipeStruct : WireType := .struct <| .cons u8 <| .blank 7 <| .cons (.array 4 relRuleStruct) .nil

/-- `struct sample_config`. -/
def sampleConfigStruct : WireType := .struct <| .cons u32 <| .blank 4 .nil

/-- `struct runtime_stats`. -/
def runtimeStatsStruct : WireType :=
  .struct <| .cons u64 <| .cons u64 <| .cons u64 <| .cons u64 <| .cons u64 <| .cons u64 <|
    .cons u64 .nil

/-- `struct config`. -/
def configStruct : WireType :=
  .struct <| .cons u64 <| .cons u64 <| .cons u64 <| .cons u64 <| .cons u8 <| .cons u8 <|
    .blank 6 .nil

/-! ## The Go types -/

def goftraceArgData : WireType :=
  .struct <| .cons (.array 64 u8) <| .cons u8 <| .cons u8 <| .blank 6 .nil

def goftraceEvent : WireType :=
  .struct <| .cons u64 <| .cons u64 <| .cons u64 <| .cons u64 <| .cons u64 <| .cons u64 <|
    .cons u32 <| .cons u32 <| .cons u8 <| .cons u8 <| .cons u8 <| .blank 1 <|
    .cons (.array 8 goftraceArgData) <| .blank 4 .nil

def goftraceArgRule : WireType :=
  .struct <| .cons u8 <| .cons u8 <| .cons u8 <| .cons u8 <| .cons (.array 8 u16) <|
    .cons (.array 8 u8) <| .cons u8 <| .cons u8 <| .cons u8 <| .blank 1 .nil

def goftraceArgRules : WireType :=
  .struct <| .cons u8 <| .blank 1 <| .cons (.array 8 goftraceArgRule) .nil

def goftraceRelRule : WireType :=
  .struct <| .cons u8 <| .cons u8 <| .cons u8 <| .blank 1 <| .cons (.array 8 u16) <|
    .cons (.array 8 u8) .nil

def goftraceTypeRecipe : WireType :=
  .struct <| .cons u8 <| .blank 7 <| .cons (.array 4 goftraceRelRule) .nil

def goftraceSampleConfig : WireType := .struct <| .cons u32 <| .blank 4 .nil

def goftraceRuntimeStats : WireType :=
  .struct <| .cons u64 <| .cons u64 <| .cons u64 <| .cons u64 <| .cons u64 <| .cons u64 <|
    .cons u64 .nil

/-- The struct that `BpfConfig` returns. -/
def bpfConfigStruct : WireType :=
  .struct <| .cons u64 <| .cons u64 <| .cons u64 <| .cons u64 <| .cons u8 <| .cons u8 <|
    .blank 6 .nil

/-! ## Crossing -/

section
variable {α : Type} {c g : WireType} {values : α → List Nat}

/-- What either side stores is what the other side reads. `values` are the integers in the fields
of a value, in the order of the fields. -/
structure Crosses (c g : WireType) (values : α → List Nat) : Prop where
  /-- Go reads a struct of the kernel's size, whatever is in its gaps. -/
  toGo : ∀ (x : α) (bytes : List UInt8), bytes.length = c.size →
    loads (c.places 0) bytes = values x → g.unmarshal bytes = some (values x, [])
  /-- The kernel reads what Go writes. -/
  toKernel : ∀ x : α, (g.marshal (values x)).1.length = c.size ∧
    loads (c.places 0) (g.marshal (values x)).1 = values x
  /-- The layout of the Go type in memory is that of the kernel. -/
  inMemory : g.size = c.size ∧ ∀ base, g.places base = c.places base
  injective : Function.Injective values

theorem Crosses.of_explicit (hg : g = c.explicit) (hfits : ∀ x, Fits (values x) c.widths)
    (hinj : Function.Injective values) : Crosses c g values where
  toGo x bytes hlen hloads := by
    rw [hg, c.unmarshal_explicit (Nat.le_of_eq hlen.symm), hloads, ← hlen, List.drop_length]
  toKernel x := hg ▸ c.marshal_loads (hfits x)
  inMemory := ⟨hg ▸ c.explicit_size, fun base => hg ▸ c.explicit_places base⟩
  injective := hinj

end

/-! ## Fields -/

/-- `bool` and the flags that are 0 or 1. -/
def flag (b : Bool) : Nat := b.toNat

theorem flag_lt (b : Bool) : flag b < 256 ^ 1 := by cases b <;> decide

theorem flag_injective : Function.Injective flag := by decide

/-- A two's complement integer in its bytes. -/
def signed (v : Int16) : Nat := v.toUInt16.toNat

theorem signed_injective : Function.Injective signed := by
  intro v w h
  exact congrArg UInt16.toInt16 (UInt16.toNat_inj.mp h)

theorem fits_append {vs ws xs ys : List Nat} (h : Fits vs xs) (h' : Fits ws ys) :
    Fits (vs ++ ws) (xs ++ ys) := List.rel_append h h'

/-- The last field of a struct. -/
theorem fits_end {vs xs : List Nat} (h : Fits vs xs) : Fits vs (xs ++ []) := by
  rwa [List.append_nil]

theorem fits_flatMap {β : Type} {f : β → List Nat} {widths : List Nat} {l : List β}
    (h : ∀ x ∈ l, Fits (f x) widths) {n : Nat} (hn : l.length = n) :
    Fits (l.flatMap f) (List.replicate n widths).flatten := by
  subst hn
  induction l with
  | nil => exact .nil
  | cons x l ih =>
    rw [List.flatMap_cons, List.length_cons, List.replicate_succ, List.flatten_cons]
    exact fits_append (h x List.mem_cons_self) (ih fun y hy => h y (List.mem_cons_of_mem _ hy))

/-- An array of integers. -/
theorem fits_map {β : Type} {f : β → Nat} {width : Nat} {l : List β}
    (h : ∀ x, f x < 256 ^ width) {n : Nat} (hn : l.length = n) :
    Fits (l.map f) (List.replicate n [width]).flatten := by
  rw [List.map_eq_flatMap]
  exact fits_flatMap (fun x _ => .cons (h x) .nil) hn

/-- Arrays of one length whose elements take the same number of integers. -/
theorem flatMap_injective {β : Type} {f : β → List Nat} (hf : Function.Injective f) {k : Nat}
    (hk : ∀ x, (f x).length = k) {xs ys : List β} (hlen : xs.length = ys.length)
    (h : xs.flatMap f = ys.flatMap f) : xs = ys := by
  induction xs generalizing ys with
  | nil => exact (List.length_eq_zero_iff.mp hlen.symm).symm
  | cons x xs ih =>
    cases ys with
    | nil => cases hlen
    | cons y ys =>
      rw [List.flatMap_cons, List.flatMap_cons] at h
      obtain ⟨hhead, htail⟩ := List.append_inj h ((hk x).trans (hk y).symm)
      rw [hf hhead, ih (Nat.succ.inj hlen) htail]

theorem map_injective {β : Type} {f : β → Nat} (hf : Function.Injective f) {xs ys : List β}
    (h : xs.map f = ys.map f) : xs = ys := hf.list_map h

/-! ## Values -/

def ArgData.values (d : ArgData) : List Nat :=
  d.data.map UInt8.toNat ++ [flag d.isNil, flag d.readError]

def Event.values (e : Event) : List Nat :=
  [e.goid.toNat, e.ip.toNat, e.bp.toNat, e.callerIp.toNat, e.callerBp.toNat, e.timeNs.toNat,
    e.pid.toNat, e.sampleDenominator.toNat, e.location.toNat, e.argCount.toNat,
    e.traceFlags.toNat] ++ e.args.toList.flatMap ArgData.values

/-- `offsets[8]` and `dereference[8]`. -/
def stepValues (steps : Steps) : List Nat :=
  steps.toList.map (fun s => signed s.1) ++ steps.toList.map fun s => flag s.2

def ArgRule.values (r : ArgRule) : List Nat :=
  [match r.type with
    | .reg => 0
    | .memory => 1, r.reg.toNat, r.size.toNat, r.length.toNat] ++
    (stepValues r.steps ++ [flag r.nilCheck, flag r.ifaceData, r.typeIdx.toNat])

def RelRule.values (r : RelRule) : List Nat :=
  [r.size.toNat, r.length.toNat, flag r.nilCheck] ++ stepValues r.steps

theorem ArgData.values_length (d : ArgData) : d.values.length = maxDataSize + 2 := by
  rw [values, List.length_append, List.length_map, d.data_length]
  rfl

theorem ArgData.values_injective : Function.Injective ArgData.values := by
  intro d d' h
  obtain ⟨hdata, hflags⟩ := List.append_inj h (by simp [d.data_length, d'.data_length])
  have hdata := map_injective (fun _ _ => UInt8.toNat_inj.mp) hdata
  rw [List.cons.injEq, List.cons.injEq] at hflags
  have hnil := flag_injective hflags.1
  have herr := flag_injective hflags.2.1
  cases d
  cases d'
  simp_all

theorem ArgData.fits (d : ArgData) : Fits d.values argDataStruct.widths :=
  fits_append (fits_map UInt8.toNat_lt d.data_length)
    (.cons (flag_lt _) (.cons (flag_lt _) .nil))

theorem Event.fits (e : Event) : Fits e.values eventStruct.widths :=
  .cons e.goid.toNat_lt <| .cons e.ip.toNat_lt <| .cons e.bp.toNat_lt <|
    .cons e.callerIp.toNat_lt <| .cons e.callerBp.toNat_lt <| .cons e.timeNs.toNat_lt <|
    .cons e.pid.toNat_lt <| .cons e.sampleDenominator.toNat_lt <| .cons e.location.toNat_lt <|
    .cons e.argCount.toNat_lt <| .cons e.traceFlags.toNat_lt <|
    fits_end (fits_flatMap (fun d _ => d.fits) e.args.length_toList)

theorem Event.values_injective : Function.Injective Event.values := by
  intro e e' h
  obtain ⟨hfields, hargs⟩ := List.append_inj h rfl
  have hargs := flatMap_injective ArgData.values_injective ArgData.values_length
    (e.args.length_toList.trans e'.args.length_toList.symm) hargs
  simp only [List.cons.injEq, UInt64.toNat_inj, UInt32.toNat_inj, UInt8.toNat_inj] at hfields
  cases e
  cases e'
  simp_all [Vector.toList_inj]

theorem stepValues_fits (steps : Steps) :
    Fits (stepValues steps) ((WireType.array 8 u16).widths ++ (WireType.array 8 u8).widths) :=
  fits_append (fits_map (fun s => s.1.toUInt16.toNat_lt) steps.length_toList)
    (fits_map (fun s => flag_lt s.2) steps.length_toList)

theorem stepValues_length (steps : Steps) : (stepValues steps).length = 16 := by
  simp [stepValues]

theorem stepValues_injective : Function.Injective stepValues := by
  intro steps steps' h
  obtain ⟨hoffsets, hflags⟩ := List.append_inj h (by simp)
  apply Vector.toList_inj.mp
  have hfst : steps.toList.map Prod.fst = steps'.toList.map Prod.fst :=
    map_injective signed_injective (by rw [List.map_map, List.map_map]; exact hoffsets)
  have hsnd : steps.toList.map Prod.snd = steps'.toList.map Prod.snd :=
    map_injective flag_injective (by rw [List.map_map, List.map_map]; exact hflags)
  have hzip := congrArg₂ List.zip hfst hsnd
  rwa [List.zip_map', List.zip_map', List.map_id', List.map_id'] at hzip

/-- The steps in front of other fields. -/
theorem fits_steps (steps : Steps) {vs xs : List Nat} (h : Fits vs xs) :
    Fits (stepValues steps ++ vs)
      ((WireType.array 8 u16).widths ++ ((WireType.array 8 u8).widths ++ xs)) := by
  rw [← List.append_assoc]
  exact fits_append (stepValues_fits steps) h

theorem ArgRule.values_length (r : ArgRule) : r.values.length = 23 := by
  simp [values, stepValues_length]

theorem ArgRule.values_injective : Function.Injective ArgRule.values := by
  intro r r' h
  obtain ⟨hfirst, hrest⟩ := List.append_inj h rfl
  obtain ⟨hsteps, hlast⟩ := List.append_inj hrest (by simp [stepValues_length])
  have hsteps := stepValues_injective hsteps
  simp only [List.cons.injEq, UInt8.toNat_inj, flag_injective.eq_iff] at hfirst hlast
  obtain ⟨type, reg, size, length, steps, nilCheck, ifaceData, typeIdx⟩ := r
  obtain ⟨type', reg', size', length', steps', nilCheck', ifaceData', typeIdx'⟩ := r'
  cases type <;> cases type' <;> simp_all

theorem ArgRule.fits (r : ArgRule) : Fits r.values argRuleStruct.widths := by
  have htype : (match r.type with | .reg => 0 | .memory => 1) < 256 ^ 1 := by
    cases r.type <;> decide
  exact .cons htype <| .cons r.reg.toNat_lt <| .cons r.size.toNat_lt <|
    .cons r.length.toNat_lt <| fits_steps r.steps <| .cons (flag_lt _) <| .cons (flag_lt _) <|
    .cons r.typeIdx.toNat_lt .nil

theorem RelRule.values_length (r : RelRule) : r.values.length = 19 := by
  simp [values, stepValues_length]

theorem RelRule.values_injective : Function.Injective RelRule.values := by
  intro r r' h
  obtain ⟨hfirst, hsteps⟩ := List.append_inj h rfl
  have hsteps := stepValues_injective hsteps
  simp only [List.cons.injEq, UInt8.toNat_inj, flag_injective.eq_iff] at hfirst
  cases r
  cases r'
  simp_all

theorem RelRule.fits (r : RelRule) : Fits r.values relRuleStruct.widths := by
  have hsteps := fits_steps r.steps .nil
  rw [List.append_nil] at hsteps
  exact .cons r.size.toNat_lt <| .cons r.length.toNat_lt <| .cons (flag_lt _) hsteps

/-! ## Arrays that are filled in part -/

section
variable {β : Type} {n : Nat} {zero : β} {l l' : List β}

/-- A Go array: the elements, then zero values. -/
def slots (n : Nat) (zero : β) (l : List β) : List β := List.ofFn fun i : Fin n => l.getD i zero

theorem slots_length : (slots n zero l).length = n := List.length_ofFn

theorem slots_injective (hl : l.length ≤ n) (hlen : l.length = l'.length)
    (h : slots n zero l = slots n zero l') : l = l' := by
  apply List.ext_getElem hlen
  intro i hi hi'
  have hget := congrFun (List.ofFn_injective h) ⟨i, Nat.lt_of_lt_of_le hi hl⟩
  simpa [List.getD_eq_getElem?_getD, hi, hi'] using hget

end

/-- The zero value of `GoftraceArgRule`. -/
def noArgRule : ArgRule :=
  { type := .reg, reg := 0, size := 0, length := 0, steps := Vector.replicate 8 (0, false)
    nilCheck := false, ifaceData := false, typeIdx := 0 }

/-- The zero value of `GoftraceRelRule`. -/
def noRelRule : RelRule :=
  { size := 0, length := 0, nilCheck := false, steps := Vector.replicate 8 (0, false) }

def argRulesValues (rules : ArgRules) : List Nat :=
  rules.length :: (slots 8 noArgRule rules).flatMap ArgRule.values

def typeRecipeValues (recipe : TypeRecipe) : List Nat :=
  recipe.length :: (slots 4 noRelRule recipe).flatMap RelRule.values

/-- `CONFIG` and the struct that `BpfConfig` returns. -/
structure Constants where
  goidOffset : Int64
  gOffset : Int64
  pidnsDev : UInt64
  pidnsIno : UInt64
  fetchArgs : Bool
  adaptiveSampling : Bool

def Constants.values (c : Constants) : List Nat :=
  [c.goidOffset.toUInt64.toNat, c.gOffset.toUInt64.toNat, c.pidnsDev.toNat, c.pidnsIno.toNat,
    flag c.fetchArgs, flag c.adaptiveSampling]

theorem Constants.values_injective : Function.Injective Constants.values := by
  intro c c' h
  simp only [values, List.cons.injEq, UInt64.toNat_inj, flag_injective.eq_iff] at h
  have hgoid := congrArg UInt64.toInt64 h.1
  have hg := congrArg UInt64.toInt64 h.2.1
  rw [Int64.toInt64_toUInt64, Int64.toInt64_toUInt64] at hgoid hg
  cases c
  cases c'
  simp_all

theorem Constants.fits (c : Constants) : Fits c.values configStruct.widths :=
  .cons c.goidOffset.toUInt64.toNat_lt <| .cons c.gOffset.toUInt64.toNat_lt <|
    .cons c.pidnsDev.toNat_lt <| .cons c.pidnsIno.toNat_lt <| .cons (flag_lt _) <|
    .cons (flag_lt _) .nil

/-! ## The structs cross -/

theorem event_crosses : Crosses eventStruct goftraceEvent Event.values :=
  .of_explicit rfl Event.fits Event.values_injective

/-- What `setArgRules` stores. -/
abbrev StoredRules : Type := { rules : ArgRules // ∃ args, encodeArgs args = .ok rules }

/-- What `SetTypeRecipe` stores. -/
abbrev StoredRecipe : Type := { recipe : TypeRecipe // ∃ rules, encodeRecipe rules = recipe }

theorem StoredRules.length_le (rules : StoredRules) : rules.1.length ≤ 8 := by
  obtain ⟨rules, args, h⟩ := rules
  unfold encodeArgs at h
  split at h
  · cases h
  · rename_i hlen
    exact (Lib.mapM_ok h).length_eq.symm.trans_le (Nat.not_lt.mp hlen)

theorem StoredRecipe.length_le (recipe : StoredRecipe) : recipe.1.length ≤ 4 := by
  obtain ⟨recipe, rules, rfl⟩ := recipe
  show ((rules.take 4).map encodeRelRule).length ≤ 4
  rw [List.length_map, List.length_take]
  exact Nat.min_le_left 4 _

theorem argRules_crosses :
    Crosses argRulesStruct goftraceArgRules fun rules : StoredRules => argRulesValues rules.1 := by
  refine .of_explicit rfl (fun rules => ?_) ?_
  · have hlen : rules.1.length < 256 ^ 1 := Nat.lt_of_le_of_lt rules.length_le (by decide)
    exact .cons hlen (fits_end (fits_flatMap (fun r _ => r.fits) slots_length))
  · intro rules rules' h
    obtain ⟨hlen, hslots⟩ := List.cons.inj h
    have hslots := flatMap_injective ArgRule.values_injective ArgRule.values_length
      (slots_length.trans slots_length.symm) hslots
    exact Subtype.ext (slots_injective rules.length_le hlen hslots)

theorem typeRecipe_crosses :
    Crosses typeRecipeStruct goftraceTypeRecipe
      fun recipe : StoredRecipe => typeRecipeValues recipe.1 := by
  refine .of_explicit rfl (fun recipe => ?_) ?_
  · have hlen : recipe.1.length < 256 ^ 1 := Nat.lt_of_le_of_lt recipe.length_le (by decide)
    exact .cons hlen (fits_end (fits_flatMap (fun r _ => r.fits) slots_length))
  · intro recipe recipe' h
    obtain ⟨hlen, hslots⟩ := List.cons.inj h
    have hslots := flatMap_injective RelRule.values_injective RelRule.values_length
      (slots_length.trans slots_length.symm) hslots
    exact Subtype.ext (slots_injective recipe.length_le hlen hslots)

theorem config_crosses : Crosses configStruct bpfConfigStruct Constants.values :=
  .of_explicit rfl Constants.fits Constants.values_injective

theorem sampleConfig_crosses :
    Crosses sampleConfigStruct goftraceSampleConfig fun den : UInt32 => [den.toNat] := by
  refine .of_explicit rfl (fun den => .cons den.toNat_lt .nil) fun den den' h => ?_
  exact UInt32.toNat_inj.mp (List.cons.inj h).1

/-- The seven counters of a CPU. -/
theorem runtimeStats_crosses :
    Crosses runtimeStatsStruct goftraceRuntimeStats
      fun counters : Vector UInt64 7 => counters.toList.map UInt64.toNat := by
  refine .of_explicit rfl (fun v => fits_map UInt64.toNat_lt v.length_toList) fun v w h => ?_
  exact Vector.toList_inj.mp (map_injective (fun _ _ => UInt64.toNat_inj.mp) h)

/-- Each struct of one side is the struct of the other side, for every value of its fields. -/
theorem structs_cross :
    Crosses eventStruct goftraceEvent Event.values ∧
      Crosses argRulesStruct goftraceArgRules
        (fun rules : StoredRules => argRulesValues rules.1) ∧
      Crosses typeRecipeStruct goftraceTypeRecipe
        (fun recipe : StoredRecipe => typeRecipeValues recipe.1) ∧
      Crosses configStruct bpfConfigStruct Constants.values ∧
      Crosses sampleConfigStruct goftraceSampleConfig (fun den : UInt32 => [den.toNat]) ∧
      Crosses runtimeStatsStruct goftraceRuntimeStats
        fun counters : Vector UInt64 7 => counters.toList.map UInt64.toNat :=
  ⟨event_crosses, argRules_crosses, typeRecipe_crosses, config_crosses, sampleConfig_crosses,
    runtimeStats_crosses⟩

end GoFtrace.Bpf
