import GoFtrace.Bpf.Meaning
import GoFtrace.Tracing.Attached

/-!
# What a rule shows

The way of a fetch rule: `newFetchArg` compiles it, `setArgRules` encodes it, `ent` and `ret` of
`ftrace.c` fetch for it, and `renderEventArgsRecipes` and `SprintValue` of the other side print
what was fetched.

* `sprintValue_width`: `SprintValue` prints the number, or the text, that the bytes are.
* `rules_shown`: the text of an event is the one that its rules say.
-/

namespace GoFtrace.Tracing

open Bpf (ArgData ArgRules Event Hit Maps Statement encodeArg encodeArgs)
open Lib (leNat)
open Uprobe (FetchArg FetchArgExpr GoText Recipes newFetchArg typeSize integerText signedOf)

/-! ## Types -/

/-- The letter of a type. -/
inductive RuleKind where
  | unsigned | signed | chars

namespace RuleKind

def letter : RuleKind → Char
  | .unsigned => 'u'
  | .signed => 's'
  | .chars => 'c'

/-- The bits of a type, as they are written, and its bytes. -/
def widths : RuleKind → List (String × Nat)
  | .chars =>
    [("8", 1), ("16", 2), ("32", 4), ("64", 8), ("128", 16), ("256", 32), ("512", 64)]
  | _ => [("8", 1), ("16", 2), ("32", 4), ("64", 8)]

/-- The kind of a type. -/
def ofType : List Char → Option RuleKind
  | 'u' :: _ => some .unsigned
  | 's' :: _ => some .signed
  | 'c' :: _ => some .chars
  | _ => none

/-- The number that bytes are in memory, or their text. -/
def text (g : GoText) (bytes : List UInt8) : RuleKind → String
  | .unsigned => toString (leNat bytes)
  | .signed => toString (BitVec.ofNat (8 * bytes.length) (leNat bytes)).toInt
  | .chars => g.ofBytes bytes

theorem ofType_letter (kind : RuleKind) (bits : List Char) :
    ofType (kind.letter :: bits) = some kind := by
  cases kind <;> rfl

theorem typeSize_width (kind : RuleKind) :
    ∀ w ∈ kind.widths, typeSize (kind.letter :: w.1.toList) = .ok (w.2 : Int) := by
  cases kind <;> decide

/-- A type that is accepted has a letter and one of its widths. -/
theorem exists_width {argType : List Char} {size : Int} (h : typeSize argType = .ok size) :
    ∃ kind : RuleKind, ∃ w ∈ kind.widths, argType = kind.letter :: w.1.toList ∧ size = w.2 := by
  have hwidth : ∀ kind : RuleKind, ∀ bits : List Char,
      String.ofList bits ∈ kind.widths.map Prod.fst → argType = kind.letter :: bits →
      ∃ kind : RuleKind, ∃ w ∈ kind.widths, argType = kind.letter :: w.1.toList ∧ size = w.2 := by
    intro kind bits hbits htype
    obtain ⟨w, hw, hname⟩ := List.mem_map.mp hbits
    have hchars : bits = w.1.toList := by
      rw [hname, String.toList_ofList]
    rw [hchars] at htype
    refine ⟨kind, w, hw, htype, ?_⟩
    rw [htype, kind.typeSize_width w hw] at h
    exact (Except.ok.inj h).symm
  cases hargType : argType with
  | nil =>
    rw [hargType] at h
    cases h
  | cons letter bits =>
    rw [← hargType]
    rw [hargType, typeSize] at h
    split at h
    · rename_i hletter
      split at h
      · rename_i hbits
        rw [List.contains_iff_mem] at hbits
        rcases hletter with rfl | rfl
        · exact hwidth .unsigned bits hbits hargType
        · exact hwidth .signed bits hbits hargType
      · cases h
    · split at h
      · rename_i hletter
        split at h
        · rename_i hbits
          rw [List.contains_iff_mem] at hbits
          subst hletter
          exact hwidth .chars bits hbits hargType
        · cases h
      · cases h

/-! ## Values -/

/-- The two's complement of all the bytes. -/
theorem signedOf_eq (bytes : List UInt8) :
    signedOf bytes.length bytes = (BitVec.ofNat (8 * bytes.length) (leNat bytes)).toInt := by
  have hlt := Lib.leNat_lt bytes
  have hpow : 256 ^ bytes.length = 2 ^ (8 * bytes.length) := (pow_mul 2 8 bytes.length).symm
  rw [hpow] at hlt
  rw [signedOf, List.take_of_length_le (Nat.le_refl _), hpow, BitVec.toInt_eq_toNat_cond,
    BitVec.toNat_ofNat, Nat.mod_eq_of_lt hlt]

/-- The integer cases, by the kinds. -/
def integerOf (data : List UInt8) (bytes : Nat) : RuleKind → Option String
  | .unsigned => some (toString (leNat (data.take bytes)))
  | .signed => some (toString (signedOf bytes data))
  | .chars => none

theorem integerText_width (kind : RuleKind) (data : List UInt8) {w : String × Nat}
    (hw : w ∈ kind.widths) :
    integerText (String.ofList (kind.letter :: w.1.toList)) data = kind.integerOf data w.2 := by
  cases kind with
  | unsigned =>
    simp only [widths, List.mem_cons, List.not_mem_nil, or_false] at hw
    rcases hw with rfl | rfl | rfl | rfl <;> rfl
  | signed =>
    simp only [widths, List.mem_cons, List.not_mem_nil, or_false] at hw
    rcases hw with rfl | rfl | rfl | rfl <;> rfl
  | chars =>
    simp only [widths, List.mem_cons, List.not_mem_nil, or_false] at hw
    rcases hw with rfl | rfl | rfl | rfl | rfl | rfl | rfl <;> rfl

theorem sprintValue_integer (g : GoText) {a : FetchArg} {data : List UInt8} {text : String}
    (h : integerText a.type (data.take a.size.toNat) = some text) :
    a.sprintValue g data = text := by
  unfold FetchArg.sprintValue
  dsimp only
  rw [h]

/-- The other cases: only characters are left. -/
theorem sprintValue_chars (g : GoText) {a : FetchArg} {w : String × Nat}
    (hw : w ∈ RuleKind.chars.widths) (htype : a.type = String.ofList ('c' :: w.1.toList))
    (data : List UInt8) : a.sprintValue g data = g.ofBytes (data.take a.size.toNat) := by
  have hnone : integerText (String.ofList ('c' :: w.1.toList)) (data.take a.size.toNat) = none :=
    integerText_width .chars _ hw
  unfold FetchArg.sprintValue
  dsimp only
  rw [htype, hnone]
  simp only [widths, List.mem_cons, List.not_mem_nil, or_false] at hw
  rcases hw with rfl | rfl | rfl | rfl | rfl | rfl | rfl <;> rfl

/-- `SprintValue` of a slot that is long enough. -/
theorem sprintValue_width (g : GoText) (kind : RuleKind) {a : FetchArg} {w : String × Nat}
    (hw : w ∈ kind.widths) (htype : a.type = String.ofList (kind.letter :: w.1.toList))
    (hsize : a.size = w.2) {data : List UInt8} (hlen : w.2 ≤ data.length) :
    a.sprintValue g data = kind.text g (data.take w.2) := by
  have hbytes : (data.take w.2).length = w.2 := List.length_take_of_le hlen
  have hinteger : integerText a.type (data.take a.size.toNat) =
      kind.integerOf (data.take w.2) w.2 := by
    rw [htype, hsize]
    exact integerText_width kind _ hw
  cases kind with
  | unsigned =>
    rw [sprintValue_integer g hinteger, List.take_take, Nat.min_self]
    rfl
  | signed =>
    have hsigned := signedOf_eq (data.take w.2)
    rw [hbytes] at hsigned
    rw [sprintValue_integer g hinteger, hsigned, text, hbytes]
  | chars =>
    rw [sprintValue_chars g hw htype, hsize]
    rfl

end RuleKind

/-! ## Rules -/

/-- A rule as its text says it. -/
structure ShownRule where
  varname : String
  kind : RuleKind
  statement : Statement

namespace ShownRule

def ofExpr (e : FetchArgExpr) : Option ShownRule :=
  match e.expr.toList.splitOn ':' with
  | [_, argType] =>
    match RuleKind.ofType argType, Statement.ofText e.expr with
    | some kind, some statement =>
      some { varname := e.varname, kind := kind, statement := statement }
    | _, _ => none
  | _ => none

/-- `name=value`, for the leaf at an index. -/
def text (g : GoText) (h : Hit) (r : ShownRule) (i : Nat) : String :=
  r.varname ++ "=" ++
    match r.statement.meaning h.regs h.user i with
    | none => "<unavailable>"
    | some bytes => r.kind.text g bytes

end ShownRule

/-- What the rules of a probe say of a hit. -/
def shownText (g : GoText) (h : Hit) (rules : List ShownRule) : String :=
  ", ".intercalate (rules.zipIdx.map fun (r, i) => r.text g h i)

/-- One turn of the loop of `renderEventArgsRecipes`. -/
def leafText (g : GoText) (a : FetchArg) (d : ArgData) : String :=
  a.varname ++ "=" ++ if d.readError then "<unavailable>" else a.sprintValue g d.data

theorem newFetchArg_named {varname statement : String} {a : FetchArg} {argAddr argType : List Char}
    (harg : newFetchArg varname statement = .ok a)
    (hsplit : statement.toList.splitOn ':' = [argAddr, argType]) :
    a.varname = varname ∧ a.type = String.ofList argType := by
  unfold newFetchArg at harg
  rw [hsplit] at harg
  dsimp only at harg
  cases hsize : typeSize argType with
  | error e =>
    rw [hsize] at harg
    cases harg
  | ok size =>
    cases hops : Uprobe.scanOps argAddr [] [] with
    | error e =>
      rw [hsize, hops] at harg
      cases harg
    | ok ops =>
      rw [hsize, hops] at harg
      rw [← Except.ok.inj harg]
      exact ⟨rfl, rfl⟩

/-- A rule that can be expressed shows what it says. -/
theorem leafText_eq (g : GoText) {e : FetchArgExpr} {a : FetchArg} {rule : Bpf.ArgRule}
    {r : ShownRule} (harg : newFetchArg e.varname e.expr = .ok a)
    (hrule : encodeArg a = .ok rule) (hr : ShownRule.ofExpr e = some r)
    (hexpr : r.statement.Expressible) (h : Hit) (i : Nat) :
    leafText g a (Bpf.fetchArg h.regs h.user i rule) = r.text g h i := by
  obtain ⟨argAddr, argType, hsplit, hsize, -, hnil, -⟩ := Uprobe.newFetchArg_ok harg
  obtain ⟨kind, w, hw, rfl, hwidth⟩ := RuleKind.exists_width hsize
  obtain ⟨hname, htype⟩ := newFetchArg_named harg hsplit
  unfold ShownRule.ofExpr at hr
  rw [hsplit] at hr
  dsimp only at hr
  rw [kind.ofType_letter] at hr
  cases hstatement : Statement.ofText e.expr with
  | none =>
    rw [hstatement] at hr
    cases hr
  | some s =>
    rw [hstatement] at hr
    cases hr
    obtain ⟨hrules, hs⟩ := Bpf.rules_of_ofText harg hstatement
    obtain ⟨hpos, hle⟩ := Uprobe.typeSize_bounds hsize
    have hbytes : w.2 = s.size := by
      rw [hwidth] at hs
      exact_mod_cast hs
    rw [hwidth, hbytes] at hpos hle
    have hresult := Bpf.fetchArg_meaning hexpr hrules hs (by exact_mod_cast hpos)
      (by exact_mod_cast hle) hnil hrule h.regs h.user i
    rw [leafText, ShownRule.text, hname]
    dsimp only
    rw [← hresult, ArgData.result]
    cases (Bpf.fetchArg h.regs h.user i rule).readError with
    | true => rfl
    | false =>
      have hlen : w.2 ≤ (Bpf.fetchArg h.regs h.user i rule).data.length := by
        rw [ArgData.data_length, hbytes]
        exact_mod_cast hle
      have hvalue := kind.sprintValue_width g hw htype hwidth hlen
      rw [hbytes] at hvalue
      exact congrArg _ hvalue

/-! ## Events -/

/-- The rules of a command line mark no interface. -/
theorem applyTypeRecipes_unmarked (recipes : UInt64 → Option Bpf.TypeRecipe) (h : Hit)
    {rules : ArgRules} (hrules : ∀ rule ∈ rules, rule.ifaceData = false) (leaves : List ArgData) :
    Bpf.applyTypeRecipes recipes h.user rules leaves = leaves := by
  have hslots : ∀ slot ∈ rules.zipIdx, slot.1.ifaceData = false := by
    intro slot hslot
    exact hrules slot.1 (List.fst_mem_of_mem_zipIdx hslot)
  unfold Bpf.applyTypeRecipes
  generalize rules.zipIdx = slots at hslots
  induction slots with
  | nil => rfl
  | cons slot slots ih =>
    obtain ⟨hslot, hslots⟩ := List.forall_mem_cons.mp hslots
    have hkeep : Bpf.applySlot recipes h.user leaves slot.2 slot.1 = leaves := by
      rw [Bpf.applySlot, hslot]
      rfl
    rw [List.foldl_cons]
    exact (congrArg (fun ls => slots.foldl _ ls) hkeep).trans (ih hslots)

theorem encodeArg_ifaceData {a : FetchArg} {rule : Bpf.ArgRule} (h : encodeArg a = .ok rule) :
    rule.ifaceData = a.ifaceData := by
  unfold encodeArg at h
  split at h
  · cases h
  · split at h
    · cases h
      rfl
    · cases h

/-- The leaves of an event are the ones that were stored in it. -/
theorem leaves_withLeaves (e : Event) {leaves : List ArgData} (hlen : leaves.length ≤ Bpf.maxArgs) :
    (e.withLeaves leaves).argCount.toNat = leaves.length ∧
      (e.withLeaves leaves).args.toList.take leaves.length = leaves := by
  constructor
  · show (UInt8.ofNat leaves.length).toNat = leaves.length
    have hle : leaves.length ≤ 8 := hlen
    exact Nat.mod_eq_of_lt (by omega)
  · exact Bpf.take_ofFn_getD leaves ArgData.zero hlen

/-- What `ent` and `ret` push is what they fetch for the event. -/
theorem fetched_of_step {bcfg : Bpf.Config} {m : Maps} {h : Hit} {a : Bpf.Action} {e : Event}
    (ha : a = .ent h ∨ a = .ret h) (he : (Bpf.step bcfg m a).2 = some e) :
    ∃ m' base, e = Bpf.fetchInto bcfg m' h base ∧ base.ip = h.regs.ip ∧ base.argCount = 0 := by
  rcases ha with rfl | rfl
  · change (Bpf.ent bcfg h m).2 = some e at he
    unfold Bpf.ent at he
    split at he
    · split at he
      · cases he
      · dsimp only at he
        split at he
        · cases he
        · split at he
          · cases he
          · cases he
            exact ⟨_, _, rfl, rfl, rfl⟩
    · cases he
      exact ⟨_, _, rfl, rfl, rfl⟩
  · change (Bpf.ret bcfg h m).2 = some e at he
    unfold Bpf.ret at he
    split at he
    · cases he
    · cases he
      exact ⟨_, _, rfl, rfl, rfl⟩

section
variable {bcfg : Bpf.Config} {cfg : EventManager.Config} {goexit : UInt64} {fns : List TracedFunc}
  {p : Uprobe}

/-- A probe with rules is a probe of a function. -/
theorem isFunctionProbe_of_rules (hparse : cfg.uprobes = parse goexit fns) (hp : p ∈ cfg.uprobes)
    (hne : p.fetchArgs ≠ []) : isFunctionProbe p = true := by
  rw [hparse] at hp
  rcases List.mem_cons.mp hp with rfl | hp
  · exact absurd rfl hne
  · obtain ⟨f, -, hp⟩ := mem_functionProbes.mp hp
    exact (mem_probes hp).2.1

/-- The rules that are stored for a probe are its own. -/
theorem Attached.argRules (hatt : Attached bcfg cfg goexit fns) (hapart : Apart cfg.symbols fns)
    (hp : p ∈ cfg.uprobes) (hfunction : isFunctionProbe p = true) :
    (p.fetchArgs = [] ∧ bcfg.argRules p.address = none) ∨
      ∃ rules, encodeArgs p.fetchArgs = .ok rules ∧ bcfg.argRules p.address = some rules ∧
        bcfg.fetchArgs = true := by
  have hloaded := Bpf.load_ok hatt.loaded
  have hresolves := (hatt.findable hapart).resolves
  obtain ⟨hall, hmap⟩ := Bpf.loadArgRules_ok hloaded.argRules
  by_cases hnil : p.fetchArgs = []
  · refine .inl ⟨hnil, Option.eq_none_iff_forall_ne_some.mpr fun rules hrules => ?_⟩
    obtain ⟨q, hq, hne, haddr, -⟩ := (hmap _ _).mp hrules
    -- two probes at one address are found as one
    have hfound := hresolves q hq (isFunctionProbe_of_rules hatt.parsed hq hne)
    rw [haddr, hresolves p hp hfunction] at hfound
    rw [← Option.some.inj hfound] at hne
    exact hne hnil
  · obtain ⟨rules, hrules⟩ := hall p hp hnil
    refine .inr ⟨rules, hrules, (hmap _ _).mpr ⟨p, hp, hnil, rfl, hrules⟩, ?_⟩
    rw [hloaded.fetchArgs]
    exact List.any_eq_true.mpr ⟨p, hp, by simpa using hnil⟩

theorem encodeArgs_mapM {args : List FetchArg} {rules : ArgRules} (h : encodeArgs args = .ok rules) :
    args.length ≤ Bpf.maxArgs ∧ args.mapM encodeArg = .ok rules := by
  unfold encodeArgs at h
  split at h
  · cases h
  · rename_i hle
    exact ⟨not_lt.mp hle, h⟩

/-- What an event of a probe without marks carries: a leaf for each of its rules. -/
theorem Attached.leaves (hatt : Attached bcfg cfg goexit fns) (hapart : Apart cfg.symbols fns)
    (hp : p ∈ cfg.uprobes) (hfunction : isFunctionProbe p = true)
    (hmarks : ∀ a ∈ p.fetchArgs, a.ifaceData = false) (m : Maps) {h : Hit} {base : Event}
    (hbase : base.ip = p.address) (hcount : base.argCount = 0) :
    ∃ rules, List.Forall₂ (fun a rule => encodeArg a = .ok rule) p.fetchArgs rules ∧
      rules.length ≤ Bpf.maxArgs ∧
      let e := Bpf.fetchInto bcfg m h base
      e.argCount.toNat = rules.length ∧
        e.args.toList.take rules.length =
          rules.zipIdx.map fun q => Bpf.fetchArg h.regs h.user q.2 q.1 := by
  rcases hatt.argRules hapart hp hfunction with ⟨hnil, hnone⟩ | ⟨rules, hrules, hsome, hfetch⟩
  · refine ⟨[], hnil ▸ .nil, Nat.zero_le _, ?_, rfl⟩
    rw [Bpf.fetchInto, hbase, hnone, ite_self, hcount]
    rfl
  · obtain ⟨hmax, hmapM⟩ := encodeArgs_mapM hrules
    have hencoded := Lib.mapM_ok hmapM
    have hlen : rules.length ≤ Bpf.maxArgs := by
      rw [← hencoded.length_eq]
      exact hmax
    have hunmarked : ∀ rule ∈ rules, rule.ifaceData = false := by
      intro rule hrule
      obtain ⟨a, ha, hone⟩ := Lib.mem_of_mapM hmapM hrule
      rw [encodeArg_ifaceData hone]
      exact hmarks a ha
    have hleaves : Bpf.fetchArgs m.typeRecipes h.regs h.user rules =
        rules.zipIdx.map fun q => Bpf.fetchArg h.regs h.user q.2 q.1 :=
      applyTypeRecipes_unmarked m.typeRecipes h hunmarked _
    have hlen' : (Bpf.fetchArgs m.typeRecipes h.regs h.user rules).length = rules.length := by
      rw [hleaves, List.length_map, List.length_zipIdx]
    refine ⟨rules, hencoded, hlen, ?_⟩
    rw [Bpf.fetchInto, if_pos hfetch, hbase, hsome, ← hlen', ← hleaves]
    exact leaves_withLeaves base (hlen'.trans_le hlen)

/-- The loop of `renderEventArgsRecipes` over the leaves of the rules. -/
theorem leafTexts_eq (g : GoText) (h : Hit) {exprs : List FetchArgExpr} {args : List FetchArg}
    {rules : ArgRules} {shown : List ShownRule}
    (hargs : List.Forall₂ (fun e a => newFetchArg e.varname e.expr = .ok a) exprs args)
    (hrules : List.Forall₂ (fun a rule => encodeArg a = .ok rule) args rules)
    (hshown : List.Forall₂ (fun e r => ShownRule.ofExpr e = some r) exprs shown)
    (hexpr : ∀ r ∈ shown, r.statement.Expressible) (n : Nat) :
    (args.zip ((rules.zipIdx n).map fun q => Bpf.fetchArg h.regs h.user q.2 q.1)).map
        (fun q => leafText g q.1 q.2) =
      (shown.zipIdx n).map fun q => q.1.text g h q.2 := by
  induction hargs generalizing rules shown n with
  | nil =>
    cases hrules
    cases hshown
    rfl
  | cons harg _ ih =>
    obtain ⟨rule, rest, hrule, hrest, rfl⟩ := List.forall₂_cons_left_iff.mp hrules
    obtain ⟨r, more, hr, hmore, rfl⟩ := List.forall₂_cons_left_iff.mp hshown
    obtain ⟨hone, hall⟩ := List.forall_mem_cons.mp hexpr
    simp only [List.zipIdx_cons, List.map_cons, List.zip_cons_cons]
    rw [leafText_eq g harg hrule hr hone h n, ih hrest hmore hall (n + 1)]

/-- `renderEventArgsRecipes` of a probe without planned values. -/
theorem renderEventArgs_leaves (hvalues : p.values = []) {e : Event} {leaves : List ArgData}
    (hlen : leaves.length = p.fetchArgs.length) (hmax : leaves.length ≤ Bpf.maxArgs)
    (hcount : e.argCount.toNat = leaves.length) (hargs : e.args.toList.take leaves.length = leaves)
    (recipes : Recipes) :
    EventManager.renderEventArgs cfg p e recipes =
      ", ".intercalate ((p.fetchArgs.zip leaves).map fun q => leafText cfg.text q.1 q.2) := by
  unfold EventManager.renderEventArgs EventManager.leafData
  dsimp only
  rw [hcount, hargs, if_neg (by omega), hvalues, List.isEmpty_nil, if_pos rfl,
    List.zip_map_right, List.map_map]
  rfl

/-- An event of a probe with rules shows, for each of them, the value that it says, at the
registers and in the memory of the hit; whatever the recipes are. -/
theorem rules_shown (hatt : Attached bcfg cfg goexit fns) (hapart : Apart cfg.symbols fns)
    (hp : p ∈ cfg.uprobes) (hfunction : isFunctionProbe p = true) (hvalues : p.values = [])
    {exprs : List FetchArgExpr} {shown : List ShownRule}
    (hexprs : exprs.mapM (fun e => newFetchArg e.varname e.expr) = .ok p.fetchArgs)
    (hshown : List.Forall₂ (fun e r => ShownRule.ofExpr e = some r) exprs shown)
    (hexpr : ∀ r ∈ shown, r.statement.Expressible) {m : Maps} {h : Hit}
    (hip : h.regs.ip = p.address) {a : Bpf.Action} (ha : a = .ent h ∨ a = .ret h) {e : Event}
    (he : (Bpf.step bcfg m a).2 = some e) (recipes : Recipes) :
    cfg.getUprobe e.ip = some p ∧
      EventManager.renderEventArgs cfg p e recipes = shownText cfg.text h shown := by
  obtain ⟨m', base, rfl, hbase, hcount⟩ := fetched_of_step ha he
  have hip' : (Bpf.fetchInto bcfg m' h base).ip = p.address := by
    rw [← hip, ← hbase, Bpf.fetchInto]
    split
    · split <;> rfl
    · rfl
  refine ⟨hip' ▸ (hatt.findable hapart).resolves p hp hfunction, ?_⟩
  have hmarks : ∀ x ∈ p.fetchArgs, x.ifaceData = false := by
    intro x hx
    obtain ⟨e, -, hx⟩ := Lib.mem_of_mapM hexprs hx
    obtain ⟨_, _, -, -, -, -, hmark⟩ := Uprobe.newFetchArg_ok hx
    exact hmark
  obtain ⟨rules, hencoded, hmax, hcount', hleaves⟩ :=
    hatt.leaves hapart hp hfunction hmarks m' (hbase.trans hip) hcount
  have hlen : (rules.zipIdx.map fun q => Bpf.fetchArg h.regs h.user q.2 q.1).length =
      rules.length := by
    rw [List.length_map, List.length_zipIdx]
  rw [← hlen] at hmax hcount' hleaves
  rw [renderEventArgs_leaves hvalues (hlen.trans hencoded.length_eq.symm) hmax hcount' hleaves,
    leafTexts_eq cfg.text h (Lib.mapM_ok hexprs) hencoded hshown hexpr 0]
  rfl

end

/-! ## Two rules -/

/-- `x=(+8(%ax)):s16` and `n=(%bx):u8`. -/
def shownExprs : List FetchArgExpr :=
  [{ varname := "x", expr := "(+8(%ax)):s16" }, { varname := "n", expr := "(%bx):u8" }]

def shownArgs : List FetchArg :=
  [{ varname := "x", type := "s16", size := 2, rules := [.register (some .ax), .stack 8 false] },
    { varname := "n", type := "u8", size := 1, rules := [.register (some .bx)] }]

/-- `R` from 16 to 31, with the rules for its arguments. -/
def shownFns : List TracedFunc :=
  [{ name := "R", entry := 16, rets := [15], wanted := true, fetchArgs := shownArgs }]

def shownConfig : EventManager.Config :=
  { EventManager.sampleConfig false with
    symbols := [{ name := "runtime.goexit1", value := 8 }, { name := "R", value := 16 }]
    uprobes := parse 8 shownFns }

/-- The probe at the entry of `R`. -/
def shownProbe : Uprobe :=
  { funcname := "R", address := 16, relOffset := 0, location := .atEntry, wanted := true
    fetchArgs := shownArgs }

def shownKernel : Bpf.Config :=
  match Bpf.load shownConfig.uprobes true with
  | .ok cfg => cfg
  | .error _ => Bpf.sampleConfig

theorem attached_shown : Attached shownKernel shownConfig 8 shownFns where
  parsed := rfl
  sorted := by simp [Elf.Sorted, shownConfig]
  loaded := rfl

theorem apart_shown : Apart shownConfig.symbols shownFns where
  names := by with_unfolding_all decide
  offsets := by with_unfolding_all decide
  near f hf off hoff := by
    obtain rfl := List.mem_singleton.mp hf
    rcases List.mem_pair.mp hoff with rfl | rfl <;>
      exact ⟨by decide, by decide, by simp only [shownConfig]; decide⟩
  alone f hf := by
    obtain rfl := List.mem_singleton.mp hf
    with_unfolding_all rfl

/-- `-2` at `0x1008`, and a register whose lowest byte is `7`. -/
def shownHit : Hit :=
  { Bpf.sampleHit 16 with
    regs := { ip := 16, reg := fun r => if r = .bx then 263 else 4096 }
    user :=
      { mem := fun a => if a = 4104 then 254 else if a = 4105 then 255 else 0
        fails := fun _ _ => false } }

theorem rules_shown_two :
    ∃ e, (Bpf.step shownKernel {} (.ent shownHit)).2 = some e ∧
      EventManager.renderEventArgs shownConfig shownProbe e (fun _ => []) = "x=-2, n=7" := by
  have hexprs : shownExprs.mapM (fun e => newFetchArg e.varname e.expr) =
      .ok shownProbe.fetchArgs := by
    with_unfolding_all rfl
  have hshown : List.Forall₂ (fun e r => ShownRule.ofExpr e = some r) shownExprs
      [{ varname := "x", kind := .signed, statement := ⟨.ax, [(8, false)], 2⟩ },
        { varname := "n", kind := .unsigned, statement := ⟨.bx, [], 1⟩ }] :=
    .cons (by with_unfolding_all rfl) (.cons (by with_unfolding_all rfl) .nil)
  have hexpr : ∀ r ∈ [(⟨"x", .signed, ⟨.ax, [(8, false)], 2⟩⟩ : ShownRule),
      ⟨"n", .unsigned, ⟨.bx, [], 1⟩⟩], r.statement.Expressible := by
    intro r hr
    rcases List.mem_pair.mp hr with rfl | rfl
    · exact ⟨by decide, by decide, nofun⟩
    · exact ⟨by decide, nofun, fun _ => by decide⟩
  have hpush : (Bpf.step shownKernel {} (.ent shownHit)).2.isSome = true := rfl
  obtain ⟨e, he⟩ := Option.isSome_iff_exists.mp hpush
  refine ⟨e, he, ?_⟩
  have hp : shownProbe ∈ shownConfig.uprobes := List.mem_cons_of_mem _ List.mem_cons_self
  rw [(rules_shown attached_shown apart_shown hp rfl rfl hexprs hshown hexpr rfl (.inl rfl) he
    fun _ => []).2]
  with_unfolding_all rfl

end GoFtrace.Tracing
