import GoFtrace.Uprobe.Layout

/-!
# Registers of ABI words

The Go ABI gives each parameter its consecutive registers when they all fit, and none
otherwise. The planner follows it as long as it does not skip a parameter that has
registers.

* `derive_registers`: exactly when every kept value is read from its own registers.
-/

namespace GoFtrace.Uprobe

/-! ## The reference assignment -/

mutual

/-- The integer words of a type in the Go ABI. A struct has those of its fields; floats,
arrays and complex numbers have none. -/
def DType.abiWords : DType → Nat
  | .typedef _ t => t.abiWords
  | .qual _ t => t.abiWords
  | .struct _ _ _ fs => fs.abiWords
  | .basic .float _ _ => 0
  | .other _ _ _ => 0
  | _ => 1

def Fields.abiWords : Fields → Nat
  | .nil => 0
  | .cons _ _ t rest => t.abiWords + rest.abiWords

end

/-- The registers of the parameters, when the first `next` ones are taken. -/
def referenceRegs : Nat → List DType → List (List Reg)
  | _, [] => []
  | next, t :: ts =>
    if next + t.abiWords ≤ abiRegs.length then
      (abiRegs.drop next).take t.abiWords :: referenceRegs (next + t.abiWords) ts
    else [] :: referenceRegs next ts

/-! ## The registers of a plan -/

/-- The register a rule chain starts from. -/
def FetchArg.baseReg (a : FetchArg) : Option Reg :=
  match a.rules.head? with
  | some (.register r) => r
  | _ => none

/-- The word leaves of each kept value, cut out of the leaves in order, are read from its
reference registers. -/
def RegistersAgree : List FetchArg → List (Option Value) → List (List Reg) → Prop
  | args, some v :: vs, regs :: rest =>
    (args.take v.wordCount).map FetchArg.baseReg = regs.map some ∧
      RegistersAgree (args.drop v.leafCount) vs rest
  | args, none :: vs, _ :: rest => RegistersAgree args vs rest
  | _, _, _ => True

/-- A parameter of a list: whether it is kept, that is planned with the leaves that are
left, and its reference registers. -/
structure Placement where
  type : DType
  kept : Bool
  regs : List Reg

/-- The placements of a list, when `used` leaves and `next` registers are taken. -/
def placements : Nat → Nat → List DType → List Placement
  | _, _, [] => []
  | used, next, t :: ts =>
    let fits := decide (next + t.abiWords ≤ abiRegs.length)
    { type := t, kept := t.keeps used
      regs := if fits then (abiRegs.drop next).take t.abiWords else [] } ::
      placements (if t.keeps used then used + t.leafNeed else used)
        (if fits then next + t.abiWords else next) ts

/-- No kept parameter follows a skipped one that has registers, and the words of each kept
parameter are counted as the ABI does. -/
def InStep (ps : List Placement) : Prop :=
  ps.Pairwise (fun a b => b.kept = true → a.kept = true ∨ a.regs = []) ∧
    ∀ p ∈ ps, p.kept = true → p.type.leafWords = p.type.abiWords

/-! ## Word leaves -/

@[simp] theorem baseReg_scalarRegSpec (name : String) (size : Int) (typ : String)
    (reg : Option Reg) : (scalarRegSpec name size typ reg).fetchArg.baseReg = reg := rfl

@[simp] theorem baseReg_ifaceTypeSpec (nonEmpty : Bool) (name : String) (reg : Option Reg) :
    (ifaceTypeSpec nonEmpty name reg).fetchArg.baseReg = reg := by
  cases nonEmpty <;> rfl

/-- The registers from `w` on. -/
def regsFrom (w n : Nat) : List (Option Reg) := (List.range' w n).map fun i => abiRegs[i]?

theorem regsFrom_add (w n m : Nat) : regsFrom w (n + m) = regsFrom w n ++ regsFrom (w + n) m := by
  have h := @List.range'_append w n m 1
  simp only [Nat.one_mul] at h
  rw [regsFrom, regsFrom, regsFrom, ← List.map_append, h]

mutual

theorem DType.wordSpecs_baseReg (name : String) : ∀ (t : DType) (w : Nat),
    (t.wordSpecs name w).map (fun s => s.fetchArg.baseReg) = regsFrom w t.leafWords
  | .typedef _ t, w => DType.wordSpecs_baseReg name t w
  | .qual _ t, w => DType.wordSpecs_baseReg name t w
  | .struct _ s _ fs, w => by
    rw [DType.wordSpecs, DType.leafWords]
    cases structKind s fs with
    | plain => exact Fields.wordSpecs_baseReg name fs w
    | iface nonEmpty => cases nonEmpty <;> rfl
    | _ => rfl
  | .ptr _ _ _, _ => rfl
  | .basic k _ _, _ => by cases k <;> rfl
  | .func _ _ _, _ => rfl
  | .other _ _ _, _ => rfl

theorem Fields.wordSpecs_baseReg (name : String) : ∀ (fs : Fields) (w : Nat),
    (fs.wordSpecs name w).map (fun s => s.fetchArg.baseReg) = regsFrom w fs.leafWords
  | .nil, _ => rfl
  | .cons n _ t rest, w => by
    rw [Fields.wordSpecs, List.map_append, DType.wordSpecs_baseReg _ t,
      Fields.wordSpecs_baseReg name rest, Fields.leafWords, regsFrom_add]

end

theorem regsFrom_eq {w n : Nat} (h : w + n ≤ abiRegs.length) :
    regsFrom w n = ((abiRegs.drop w).take n).map some := by
  induction n generalizing w with
  | zero => rfl
  | succ n ih =>
    have hw : w < abiRegs.length := by omega
    rw [regsFrom, List.range'_succ, List.map_cons, List.drop_eq_getElem_cons hw,
      List.take_succ_cons, List.map_cons, List.getElem?_eq_getElem hw, ← ih (by omega)]
    rfl

/-- The registers of two places agree only if the places do. -/
theorem regsFrom_ne {w next n m : Nat} (hn : 0 < n) (hw : w + n ≤ abiRegs.length)
    (hlt : w < next) : regsFrom w n ≠ ((abiRegs.drop next).take m).map some := by
  intro h
  have hne : abiRegs.Nodup := by decide
  have hhead : (regsFrom w n).head? = some (abiRegs[w]?) := by
    obtain ⟨k, rfl⟩ := Nat.exists_eq_succ_of_ne_zero (by omega : n ≠ 0)
    rfl
  rw [h, List.head?_map] at hhead
  cases hd : ((abiRegs.drop next).take m).head? with
  | none => rw [hd] at hhead; cases hhead
  | some r =>
    rw [hd, Option.map_some, Option.some.injEq] at hhead
    have hmem : r ∈ abiRegs.drop next :=
      List.mem_of_mem_take (List.mem_of_mem_head? hd)
    obtain ⟨i, hi, hr⟩ := List.mem_iff_getElem.mp hmem
    rw [List.length_drop] at hi
    rw [List.getElem_drop] at hr
    have hget : abiRegs[w]? = abiRegs[next + i]? := by
      rw [← hhead, List.getElem?_eq_getElem (by omega), hr]
    have heq := (List.getElem?_inj (by omega) hne).mp hget
    omega

theorem regsFrom_length (w n : Nat) : (regsFrom w n).length = n := by
  rw [regsFrom, List.length_map, List.length_range']

/-! ## The correspondence -/

theorem marked_baseReg (args : List FetchArg) :
    (markIfaceSlots args).map FetchArg.baseReg = args.map FetchArg.baseReg := by
  rw [markIfaceSlots, List.map_map]
  refine List.map_congr_left fun a _ => ?_
  dsimp only [Function.comp]
  split
  · split <;> rfl
  · rfl

/-- The agreement depends on the registers of the leaves only. -/
theorem registersAgree_congr {args args' : List FetchArg}
    (h : args.map FetchArg.baseReg = args'.map FetchArg.baseReg) (vs : List (Option Value))
    (regs : List (List Reg)) : RegistersAgree args vs regs ↔ RegistersAgree args' vs regs := by
  induction vs generalizing args args' regs with
  | nil => cases regs <;> simp [RegistersAgree]
  | cons v vs ih =>
    cases regs with
    | nil => cases v <;> simp [RegistersAgree]
    | cons r regs =>
      cases v with
      | none => exact ih h regs
      | some v =>
        have htake : (args.take v.wordCount).map FetchArg.baseReg =
            (args'.take v.wordCount).map FetchArg.baseReg := by
          rw [List.map_take, List.map_take, h]
        have hdrop : (args.drop v.leafCount).map FetchArg.baseReg =
            (args'.drop v.leafCount).map FetchArg.baseReg := by
          rw [List.map_drop, List.map_drop, h]
        rw [RegistersAgree, RegistersAgree, htake, ih hdrop regs]

/-- The values that are kept, as the agreement sees them. -/
def keptValues (rename : String → String) (vars : List Variable) (word used : Nat) :
    List (Option Value) :=
  (keep rename vars word used).map (Option.map Kept.value)

def keptArgs (rename : String → String) (vars : List Variable) (word used : Nat) :
    List FetchArg :=
  ((keep rename vars word used).reduceOption.flatMap Kept.layout).map ArgSpec.fetchArg

/-- The words of the first kept value. -/
theorem take_layout (name : String) (t : DType) (w : Nat) (args : List FetchArg) :
    (((t.layout name w).map ArgSpec.fetchArg ++ args).take t.leafWords).map FetchArg.baseReg =
      regsFrom w t.leafWords := by
  have hlen : ((t.wordSpecs name w).map ArgSpec.fetchArg).length = t.leafWords := by simp
  rw [DType.layout, List.map_append, List.append_assoc, List.take_left' hlen, List.map_map]
  exact t.wordSpecs_baseReg name w

theorem drop_layout (name : String) (t : DType) (w : Nat) (args : List FetchArg) :
    ((t.layout name w).map ArgSpec.fetchArg ++ args).drop t.leafNeed = args :=
  List.drop_left' (by simp)

/-- The registers that the reference gives to a value with `m` words. -/
def givenRegs (next m : Nat) : List Reg :=
  if next + m ≤ abiRegs.length then (abiRegs.drop next).take m else []

/-- The registers taken after it. -/
def nextRegs (next m : Nat) : Nat := if next + m ≤ abiRegs.length then next + m else next

theorem referenceRegs_cons (next : Nat) (t : DType) (ts : List DType) :
    referenceRegs next (t :: ts) =
      givenRegs next t.abiWords :: referenceRegs (nextRegs next t.abiWords) ts := by
  rw [referenceRegs, givenRegs, nextRegs]
  split <;> rfl

theorem placements_cons (used next : Nat) (t : DType) (ts : List DType) :
    placements used next (t :: ts) =
      { type := t, kept := t.keeps used, regs := givenRegs next t.abiWords } ::
        placements (if t.keeps used then used + t.leafNeed else used)
          (nextRegs next t.abiWords) ts := by
  rw [placements, givenRegs, nextRegs]
  simp only [decide_eq_true_eq]

theorem givenRegs_length_le (next m : Nat) :
    (givenRegs next m).length = m ∨ givenRegs next m = [] := by
  unfold givenRegs
  split
  · left
    rw [List.length_take, List.length_drop]
    omega
  · exact .inr rfl

theorem givenRegs_eq_nil {next m : Nat} : givenRegs next m = [] ↔ nextRegs next m = next := by
  unfold givenRegs nextRegs
  split
  · rename_i h
    rw [← List.length_eq_zero_iff, List.length_take, List.length_drop]
    omega
  · simp

/-- A kept value is read from its registers exactly when the cursors are equal and its words
are counted right. -/
theorem regsFrom_eq_given {word next n m : Nat} (hn : 0 < n) (hw : word + n ≤ abiRegs.length)
    (hle : word ≤ next) :
    regsFrom word n = (givenRegs next m).map some ↔ word = next ∧ n = m := by
  constructor
  · intro h
    have hlength := congrArg List.length h
    rw [regsFrom_length, List.length_map] at hlength
    rcases givenRegs_length_le next m with hm | hnil
    · refine ⟨?_, by omega⟩
      by_contra hne
      unfold givenRegs at h
      split at h
      · exact regsFrom_ne hn hw (by omega) h
      · have hzero := congrArg List.length h
        rw [regsFrom_length] at hzero
        exact absurd hzero (Nat.ne_of_gt hn)
    · rw [hnil] at hlength
      exact absurd hlength (Nat.ne_of_gt hn)
  · rintro ⟨rfl, rfl⟩
    rw [regsFrom_eq hw, givenRegs, if_pos hw]

/-- The agreement of the rest of a list. While no skipped parameter had registers the two
cursors are equal; afterwards the reference is ahead, and every kept value is wrong. -/
theorem registersAgree_iff {rename : String → String} {vars : List Variable} {word used next : Nat}
    (hregular : ∀ v ∈ vars, v.type.regular = true) (hused : word ≤ used) (hle : word ≤ next) :
    RegistersAgree (keptArgs rename vars word used) (keptValues rename vars word used)
        (referenceRegs next (vars.map Variable.type)) ↔
      (word < next → ∀ p ∈ placements used next (vars.map Variable.type), p.kept = false) ∧
        InStep (placements used next (vars.map Variable.type)) := by
  induction vars generalizing word used next with
  | nil => simp [keptValues, keep, RegistersAgree, placements, InStep]
  | cons v vars ih =>
    have hlen : maxFetchArgs < abiRegs.length := by decide
    have hvars : ∀ v ∈ vars, v.type.regular = true := fun v hv =>
      hregular v (List.mem_cons_of_mem _ hv)
    rw [keptArgs, keptValues, keep, List.map_cons, referenceRegs_cons, placements_cons]
    by_cases hkeeps : v.type.keeps used = true
    · obtain ⟨hplans, hfit⟩ : v.type.plans = true ∧ used + v.type.leafNeed ≤ maxFetchArgs := by
        simpa [DType.keeps] using hkeeps
      have hpos : 0 < v.type.leafWords :=
        DType.leafWords_pos (hregular v List.mem_cons_self) hplans
      have hneed : v.type.leafNeed = v.type.leafWords + v.type.captureCount := rfl
      rw [hkeeps, if_pos rfl, if_pos rfl, List.reduceOption_cons_of_some, List.flatMap_cons,
        List.map_append, List.map_cons, Option.map_some, RegistersAgree]
      change ((((v.type.layout (rename v.name) word).map ArgSpec.fetchArg ++ _).take
        v.type.leafWords).map FetchArg.baseReg = _ ∧ RegistersAgree
          (((v.type.layout (rename v.name) word).map ArgSpec.fetchArg ++ _).drop
            v.type.leafNeed) _ _) ↔ _
      rw [take_layout, drop_layout, regsFrom_eq_given hpos (by omega) hle]
      constructor
      · rintro ⟨⟨rfl, hwords⟩, hrest⟩
        have hnext : nextRegs word v.type.abiWords = word + v.type.leafWords := by
          rw [nextRegs, ← hwords, if_pos (by omega)]
        rw [hnext] at hrest ⊢
        obtain ⟨-, hpairs, hcounts⟩ := (ih hvars (by omega) (Nat.le_refl _)).mp hrest
        refine ⟨fun h => absurd h (Nat.lt_irrefl _), ?_, ?_⟩
        · exact List.pairwise_cons.mpr ⟨fun _ _ _ => .inl rfl, hpairs⟩
        · intro p hp
          rcases List.mem_cons.mp hp with rfl | hp
          · exact fun _ => hwords
          · exact hcounts p hp
      · rintro ⟨hahead, hpairs, hcounts⟩
        have hword : word = next := by
          by_contra hne
          have hfalse := hahead (by omega) _ List.mem_cons_self
          cases hfalse
        subst hword
        have hwords : v.type.leafWords = v.type.abiWords := hcounts _ List.mem_cons_self rfl
        have hnext : nextRegs word v.type.abiWords = word + v.type.leafWords := by
          rw [nextRegs, ← hwords, if_pos (by omega)]
        refine ⟨⟨rfl, hwords⟩, ?_⟩
        rw [hnext] at hpairs hcounts ⊢
        refine (ih hvars (by omega) (Nat.le_refl _)).mpr ⟨fun h => absurd h (Nat.lt_irrefl _),
          (List.pairwise_cons.mp hpairs).2, fun p hp => hcounts p (List.mem_cons_of_mem _ hp)⟩
    · have hno : v.type.keeps used = false := Bool.eq_false_iff.mpr hkeeps
      have hnext : next ≤ nextRegs next v.type.abiWords := by
        unfold nextRegs
        split <;> omega
      rw [hno, if_neg Bool.false_ne_true, if_neg Bool.false_ne_true,
        List.reduceOption_cons_of_none, List.map_cons, Option.map_none, RegistersAgree]
      refine (ih hvars hused (Nat.le_trans hle hnext)).trans ?_
      constructor
      · rintro ⟨hahead, hpairs, hcounts⟩
        refine ⟨fun hlt p hp => ?_, List.pairwise_cons.mpr ⟨fun p hp hkept => ?_, hpairs⟩, ?_⟩
        · rcases List.mem_cons.mp hp with rfl | hp
          · rfl
          · exact hahead (by omega) p hp
        · -- a parameter with registers moves the reference ahead
          right
          rw [givenRegs_eq_nil]
          by_contra hne
          have hfalse := hahead (by omega) p hp
          rw [hkept] at hfalse
          cases hfalse
        · intro p hp
          rcases List.mem_cons.mp hp with rfl | hp
          · exact fun h => absurd h Bool.false_ne_true
          · exact hcounts p hp
      · rintro ⟨hahead, hpairs, hcounts⟩
        obtain ⟨hhead, hpairs⟩ := List.pairwise_cons.mp hpairs
        refine ⟨fun hlt p hp => ?_, hpairs, fun p hp => hcounts p (List.mem_cons_of_mem _ hp)⟩
        by_cases hword : word < next
        · exact hahead hword p (List.mem_cons_of_mem _ hp)
        · rw [Bool.eq_false_iff]
          intro hkept
          rcases hhead p hp hkept with h | h
          · cases h
          · rw [givenRegs_eq_nil] at h
            omega

/-! ## The plans -/

/-- Every kept value is read from its reference registers exactly when no kept parameter
follows a skipped one that has registers and the words of the kept ones are counted right. -/
theorem derive_registers (rename : String → String) (vars : List Variable)
    (hregular : ∀ v ∈ vars, v.type.regular = true) :
    RegistersAgree (derive rename vars).1
        ((planEach rename vars {}).map (Option.map Planned.value))
        (referenceRegs 0 (vars.map Variable.type)) ↔
      InStep (placements 0 0 (vars.map Variable.type)) := by
  obtain ⟨hout, -, heach⟩ := planAll_keep rename hregular (c := {}) (Nat.le_refl _)
  have hargs : ((derive rename vars).1).map FetchArg.baseReg =
      (keptArgs rename vars 0 0).map FetchArg.baseReg := by
    change (markIfaceSlots ((planAll rename vars {}).1.out.map ArgSpec.fetchArg)).map
      FetchArg.baseReg = _
    rw [marked_baseReg, hout]
    rfl
  have hvalues : (planEach rename vars {}).map (Option.map Planned.value) =
      keptValues rename vars 0 0 := by
    rw [heach, keptValues, List.map_map]
    refine List.map_congr_left fun k _ => ?_
    cases k <;> rfl
  rw [registersAgree_congr hargs, hvalues,
    registersAgree_iff hregular (Nat.le_refl _) (Nat.le_refl _)]
  exact ⟨fun h => h.2, fun h => ⟨fun hlt => absurd hlt (Nat.lt_irrefl _), h⟩⟩

/-! ## A skipped function value -/

def sampleInt : DType := .basic .int "int" 8

def sampleFunc : DType := .func "" "func()" 8

/-- `func(cb func(), n int)`: `cb` is skipped and `n` is read from its register. -/
theorem skipped_func_registers :
    (∀ v ∈ [(⟨"cb", sampleFunc⟩ : Variable), ⟨"n", sampleInt⟩], v.type.regular = true) ∧
      ¬ RegistersAgree (deriveArgs [⟨"cb", sampleFunc⟩, ⟨"n", sampleInt⟩]).1
        ((planEach id [⟨"cb", sampleFunc⟩, ⟨"n", sampleInt⟩] {}).map (Option.map Planned.value))
        (referenceRegs 0 [sampleFunc, sampleInt]) := by
  refine ⟨by decide, fun h => ?_⟩
  have hregs : ((deriveArgs [⟨"cb", sampleFunc⟩, ⟨"n", sampleInt⟩]).1.take 1).map
      FetchArg.baseReg = [some Reg.bx] := h.1
  have hax : ((deriveArgs [⟨"cb", sampleFunc⟩, ⟨"n", sampleInt⟩]).1.take 1).map
      FetchArg.baseReg = [some Reg.ax] := by with_unfolding_all rfl
  rw [hax] at hregs
  cases hregs

/-- Two integers are in step. -/
theorem derive_registers_ints :
    RegistersAgree (derive id [⟨"a", sampleInt⟩, ⟨"b", sampleInt⟩]).1
      ((planEach id [⟨"a", sampleInt⟩, ⟨"b", sampleInt⟩] {}).map (Option.map Planned.value))
      (referenceRegs 0 [sampleInt, sampleInt]) :=
  (derive_registers id [⟨"a", sampleInt⟩, ⟨"b", sampleInt⟩] (by decide)).mpr
    ⟨.cons (by decide) (.cons (by decide) .nil), by decide⟩

end GoFtrace.Uprobe
