import GoFtrace.Bpf.Rules
import GoFtrace.Uprobe.Accepted
import Mathlib.Data.List.DropRight

/-!
# Fetch rules of the command line

`parseFetchExpr` of `cmd/tracer.go`, and the way of a rule through `newFetchArg` to
`setArgRules`. A string is the list of its characters; bytes that are no UTF-8 are characters
like any other.

* `handled_iff`: the rules that are rejected or accepted without a crash and without a silent
  register.
-/

namespace GoFtrace.Cmd

open Uprobe (Accepted EmptyType FetchArgExpr FetchArg FetchError NamesRegister RegisterInnermost
  accepted_of_ok namesRegister_iff newFetchArg newFetchArg_cases)

/-! ## parseFetchExpr -/

/-- `unicode.IsSpace`. -/
def isSpace (c : Char) : Bool :=
  let n := c.toNat
  (9 ≤ n && n ≤ 13) || n == 0x20 || n == 0x85 || n == 0xA0 || n == 0x1680 ||
    (0x2000 ≤ n && n ≤ 0x200a) || n == 0x2028 || n == 0x2029 || n == 0x202f || n == 0x205f ||
    n == 0x3000

/-- `strings.TrimSpace`. -/
def trimSpace (s : List Char) : List Char := (s.dropWhile isSpace).rdropWhile isSpace

/-- The errors of `parseFetchExpr`. -/
inductive ParseError where
  | imbalanced (s : List Char)
  | invalidVariable (vals : List (List Char))
  /-- `s[len(s)-1]` of an empty string. -/
  | indexOutOfRange
  deriving DecidableEq, Repr

/-- The loop of `parseFetchExpr`, over the reversed text before the last `)`: `stack` is the
number of open `)`, and `args` what lies behind. The stack is never empty inside the loop, so
that the other `imbalanced` error of the loop is not reached. -/
def splitCall : Nat → List Char → List Char → Option (List Char × List Char)
  | _, [], _ => none
  | stack, c :: before, args =>
    if c = ')' then splitCall (stack + 1) before (c :: args)
    else if c = '(' then
      if stack = 1 then some (before.reverse, args)
      else splitCall (stack - 1) before (c :: args)
    else splitCall stack before (c :: args)

/-- One turn of the loop over the variables. -/
def parseVariable (part : List Char) : Except ParseError FetchArgExpr :=
  match part.splitOn '=' with
  | [argName, argExpr] =>
    .ok { varname := String.ofList (trimSpace argName), expr := String.ofList (trimSpace argExpr) }
  | vals => .error (.invalidVariable vals)

/-- `parseFetchExpr`. -/
def parseFetchExpr (s : List Char) : Except ParseError (List Char × List FetchArgExpr) :=
  match s.reverse with
  | [] => .error .indexOutOfRange
  | last :: before =>
    if last ≠ ')' then .ok (s, [])
    else
      match splitCall 1 before [] with
      | none => .error (.imbalanced s)
      | some (funcname, args) =>
        match (args.splitOn ',').mapM parseVariable with
        | .ok vars => .ok (funcname, vars)
        | .error e => .error e

/-! ## The way of a rule -/

/-- The errors of the three stages. -/
inductive RuleError where
  | parse (e : ParseError)
  | fetch (e : FetchError)
  | load (e : Bpf.LoadError)
  deriving DecidableEq, Repr

/-- The index expressions that panic. -/
def RuleError.IsCrash : RuleError → Prop
  | .parse e => e = .indexOutOfRange
  | .fetch e => e = .indexOutOfRange
  | .load e => e = .indexOutOfRange

/-- `newFetchArg` on each variable. -/
def fetchArgs (vars : List FetchArgExpr) : Except FetchError (List FetchArg) :=
  vars.mapM fun v => newFetchArg v.varname v.expr

/-- `parseFetchExpr`, `newFetchArg` on each variable, and `setArgRules`. -/
def loadRule (s : List Char) : Except RuleError (List Char × Bpf.ArgRules) :=
  match parseFetchExpr s with
  | .error e => .error (.parse e)
  | .ok (funcname, vars) =>
    match fetchArgs vars with
    | .error e => .error (.fetch e)
    | .ok args =>
      match Bpf.encodeArgs args with
      | .error e => .error (.load e)
      | .ok rules => .ok (funcname, rules)

/-! ## The scan back -/

/-- The text that a scan back skips, from `n` open brackets to the last one. -/
def Skips (n : Nat) (mid : List Char) : Prop :=
  (∀ p, p <+: mid → p.count '(' < n + p.count ')') ∧ n + mid.count ')' = 1 + mid.count '('

theorem skips_nil {n : Nat} : Skips n [] ↔ n = 1 := by
  constructor
  · intro h
    simpa using h.2
  · rintro rfl
    exact ⟨fun p hp => by rw [List.prefix_nil.mp hp]; decide, rfl⟩

/-- The first character of the skipped text. -/
theorem skips_cons {n m : Nat} {c : Char} {mid : List Char} (hn : 1 ≤ n)
    (hstep : m + [c].count '(' = n + [c].count ')') :
    Skips n (c :: mid) ↔ Skips m mid ∧ 1 ≤ m := by
  have hopen : ∀ l : List Char, (c :: l).count '(' = [c].count '(' + l.count '(' := fun l =>
    @List.count_append _ _ '(' [c] l
  have hclose : ∀ l : List Char, (c :: l).count ')' = [c].count ')' + l.count ')' := fun l =>
    @List.count_append _ _ ')' [c] l
  unfold Skips
  rw [hopen, hclose]
  constructor
  · rintro ⟨hall, htotal⟩
    have hfirst := hall [c] (by simp)
    refine ⟨⟨fun p hp => ?_, by omega⟩, by omega⟩
    have hp' := hall (c :: p) ((List.prefix_cons_inj c).mpr hp)
    rw [hopen, hclose] at hp'
    omega
  · rintro ⟨⟨hall, htotal⟩, hm⟩
    refine ⟨fun p hp => ?_, by omega⟩
    rcases List.prefix_cons_iff.mp hp with rfl | ⟨t, rfl, ht⟩
    · exact Nat.lt_of_lt_of_le hn (Nat.le_add_right _ _)
    · have ht' := hall t ht
      rw [hopen, hclose]
      omega

/-- The scan back finds the bracket that the last one closes. -/
theorem splitCall_iff {n : Nat} (hn : 1 ≤ n) {b acc funcname args : List Char} :
    splitCall n b acc = some (funcname, args) ↔
      ∃ mid, b = mid ++ '(' :: funcname.reverse ∧ args = mid.reverse ++ acc ∧ Skips n mid := by
  induction b generalizing n acc with
  | nil => simp [splitCall]
  | cons c b ih =>
    rw [splitCall]
    by_cases hclose : c = ')'
    · subst hclose
      rw [if_pos rfl, ih (Nat.le_add_left 1 n)]
      constructor
      · rintro ⟨mid, rfl, rfl, hskips⟩
        exact ⟨')' :: mid, rfl, by simp, (skips_cons hn rfl).mpr ⟨hskips, Nat.le_add_left 1 n⟩⟩
      · rintro ⟨mid, heq, rfl, hskips⟩
        cases mid with
        | nil => cases heq
        | cons c' mid =>
          cases heq
          exact ⟨mid, rfl, by simp, ((skips_cons hn rfl).mp hskips).1⟩
    rw [if_neg hclose]
    by_cases hopen : c = '('
    · subst hopen
      rw [if_pos rfl]
      by_cases hone : n = 1
      · subst hone
        rw [if_pos rfl]
        constructor
        · intro h
          cases h
          exact ⟨[], by simp, rfl, skips_nil.mpr rfl⟩
        · rintro ⟨mid, heq, rfl, hskips⟩
          cases mid with
          | nil =>
            cases heq
            simp
          | cons c' mid =>
            cases heq
            exact absurd ((skips_cons (Nat.le_refl 1) rfl).mp hskips).2 (Nat.not_succ_le_zero 0)
      · rw [if_neg hone, ih (by omega)]
        have hstep : n - 1 + ['('].count '(' = n + ['('].count ')' := by
          change n - 1 + 1 = n + 0
          omega
        constructor
        · rintro ⟨mid, rfl, rfl, hskips⟩
          exact ⟨'(' :: mid, rfl, by simp, (skips_cons hn hstep).mpr ⟨hskips, by omega⟩⟩
        · rintro ⟨mid, heq, rfl, hskips⟩
          cases mid with
          | nil => exact absurd (skips_nil.mp hskips) hone
          | cons c' mid =>
            cases heq
            exact ⟨mid, rfl, by simp, ((skips_cons hn hstep).mp hskips).1⟩
    · rw [if_neg hopen, ih hn]
      have hstep : n + [c].count '(' = n + [c].count ')' := by
        simp [hopen, hclose]
      constructor
      · rintro ⟨mid, rfl, rfl, hskips⟩
        exact ⟨c :: mid, rfl, by simp, (skips_cons hn hstep).mpr ⟨hskips, hn⟩⟩
      · rintro ⟨mid, heq, rfl, hskips⟩
        cases mid with
        | nil =>
          cases heq
          exact absurd rfl hopen
        | cons c' mid =>
          cases heq
          exact ⟨mid, rfl, by simp, ((skips_cons hn hstep).mp hskips).1⟩

/-! ## Crashes -/

theorem parseVariable_no_crash {part : List Char} {e : ParseError}
    (h : parseVariable part = .error e) : e ≠ .indexOutOfRange := by
  unfold parseVariable at h
  split at h
  · cases h
  · cases h
    nofun

/-- Only the empty string crashes `parseFetchExpr`. -/
theorem parseFetchExpr_crash {s : List Char} :
    parseFetchExpr s = .error .indexOutOfRange ↔ s = [] := by
  constructor
  · intro h
    unfold parseFetchExpr at h
    split at h
    · rename_i hrev
      exact List.reverse_eq_nil_iff.mp hrev
    · split at h
      · cases h
      · split at h
        · cases h
        · rename_i funcname args hcall
          rcases Lib.mapM_cases parseVariable (args.splitOn ',') with ⟨⟨vars, hvars⟩, -⟩ |
            ⟨before, v, after, e, -, -, hv, hmap⟩
          · rw [hvars] at h
            cases h
          · rw [hmap] at h
            cases h
            exact absurd rfl (parseVariable_no_crash hv)
  · rintro rfl
    rfl

/-- A chain with a register is encoded without a crash. -/
theorem encodeArgs_no_crash {args : List FetchArg} (h : ∀ a ∈ args, NamesRegister a.rules)
    {e : Bpf.LoadError} (he : Bpf.encodeArgs args = .error e) : e ≠ .indexOutOfRange := by
  unfold Bpf.encodeArgs at he
  split at he
  · cases he
    nofun
  · rcases Lib.mapM_cases Bpf.encodeArg args with ⟨⟨rules, hrules⟩, -⟩ |
      ⟨before, a, after, e', hargs, -, ha, hmap⟩
    · rw [hrules] at he
      cases he
    · obtain rfl : e' = e := by
        rw [hmap] at he
        exact Except.error.inj he
      obtain ⟨r, steps, hsteps, -⟩ := h a (by rw [hargs]; simp)
      unfold Bpf.encodeArg at ha
      rw [hsteps] at ha
      split at ha
      · cases ha
        nofun
      · rw [List.head?_cons, List.getLast?_cons] at ha
        cases ha

/-- A rule is handled: no stage crashes, and every chain that `newFetchArg` accepts starts at a
register. -/
structure Handled (s : List Char) : Prop where
  no_crash : ∀ e, loadRule s = .error e → ¬ e.IsCrash
  named : ∀ funcname vars, parseFetchExpr s = .ok (funcname, vars) → ∀ v ∈ vars, ∀ a,
    newFetchArg v.varname v.expr = .ok a → NamesRegister a.rules

/-- A part of a rule: a name and an expression, with blanks around them. -/
def VariableText (part : List Char) (v : FetchArgExpr) : Prop :=
  ∃ argName argExpr, part.splitOn '=' = [argName, argExpr] ∧
    v = { varname := String.ofList (trimSpace argName), expr := String.ofList (trimSpace argExpr) }

/-- The variables of a rule `funcname(part,...)`, whose last bracket closes the one behind the
name. -/
def Variables (s : List Char) (vars : List FetchArgExpr) : Prop :=
  ∃ funcname args, s = funcname ++ '(' :: args ++ [')'] ∧ Skips 1 args.reverse ∧
    List.Forall₂ VariableText (args.splitOn ',') vars

/-- The texts of a rule that is handled: it is not empty, a variable with an empty type stands
behind one that is rejected, and every acceptable variable has its register innermost. -/
def HandledText (s : List Char) : Prop :=
  s ≠ [] ∧ ∀ vars, Variables s vars →
    (∀ before v after, vars = before ++ v :: after → EmptyType v.expr →
      ∃ u ∈ before, ¬ Accepted u.expr) ∧
    ∀ v ∈ vars, Accepted v.expr → RegisterInnermost v.expr

theorem parseVariable_ok {part : List Char} {v : FetchArgExpr} :
    parseVariable part = .ok v ↔ VariableText part v := by
  unfold parseVariable VariableText
  split
  · rename_i argName argExpr hsplit
    constructor
    · intro h
      cases h
      exact ⟨argName, argExpr, hsplit, rfl⟩
    · rintro ⟨name, expr, heq, rfl⟩
      rw [hsplit] at heq
      cases heq
      rfl
  · rename_i hsplit
    constructor
    · nofun
    · rintro ⟨name, expr, heq, -⟩
      exact absurd heq (hsplit name expr)

/-- The bracket that the last one closes. -/
theorem splitCall_last {before funcname args : List Char} :
    splitCall 1 before [] = some (funcname, args) ↔
      before = args.reverse ++ '(' :: funcname.reverse ∧ Skips 1 args.reverse := by
  rw [splitCall_iff (Nat.le_refl 1)]
  constructor
  · rintro ⟨mid, rfl, rfl, hskips⟩
    rw [List.append_nil, List.reverse_reverse]
    exact ⟨rfl, hskips⟩
  · rintro ⟨rfl, hskips⟩
    exact ⟨args.reverse, rfl, by simp, hskips⟩

/-- A rule with brackets is split into its name and its variables. -/
theorem parseFetchExpr_call {funcname args : List Char} {vars : List FetchArgExpr}
    (hskips : Skips 1 args.reverse) (hvars : List.Forall₂ VariableText (args.splitOn ',') vars) :
    parseFetchExpr (funcname ++ '(' :: args ++ [')']) = .ok (funcname, vars) := by
  have hrev : (funcname ++ '(' :: args ++ [')']).reverse =
      ')' :: (args.reverse ++ '(' :: funcname.reverse) := by simp
  have hmap : (args.splitOn ',').mapM parseVariable = .ok vars :=
    Lib.mapM_ok_iff.mpr (hvars.imp fun _ _ h => parseVariable_ok.mpr h)
  unfold parseFetchExpr
  rw [hrev]
  dsimp only
  rw [if_neg (not_not_intro rfl), splitCall_last.mpr ⟨rfl, hskips⟩]
  dsimp only
  rw [hmap]

/-- What is split is a rule with brackets, or has no variables. -/
theorem parseFetchExpr_ok {s funcname : List Char} {vars : List FetchArgExpr}
    (h : parseFetchExpr s = .ok (funcname, vars)) : Variables s vars ∨ vars = [] := by
  unfold parseFetchExpr at h
  split at h
  · cases h
  · rename_i last before hrev
    split at h
    · cases h
      exact .inr rfl
    · rename_i hlast
      rw [not_not] at hlast
      subst hlast
      split at h
      · cases h
      · rename_i name args hcall
        obtain ⟨rfl, hskips⟩ := splitCall_last.mp hcall
        split at h
        · rename_i found hmap
          cases h
          refine .inl ⟨funcname, args, ?_, hskips, ?_⟩
          · rw [← List.reverse_reverse s, hrev]
            simp
          · exact (Lib.mapM_ok_iff.mp hmap).imp fun _ _ hv => parseVariable_ok.mp hv
        · cases h

/-- What becomes of a rule. -/
theorem loadRule_eq {s : List Char} {funcname : List Char} {vars : List FetchArgExpr}
    (hparse : parseFetchExpr s = .ok (funcname, vars)) :
    loadRule s = match fetchArgs vars with
      | .error e => .error (.fetch e)
      | .ok args =>
        match Bpf.encodeArgs args with
        | .error e => .error (.load e)
        | .ok rules => .ok (funcname, rules) := by
  rw [loadRule, hparse]

theorem HandledText.handled {s : List Char} (h : HandledText s) : Handled s := by
  obtain ⟨hne, hvars⟩ := h
  have hsplit : ∀ funcname vars, parseFetchExpr s = .ok (funcname, vars) →
      (∀ before v after, vars = before ++ v :: after → EmptyType v.expr →
        ∃ u ∈ before, ¬ Accepted u.expr) ∧
      ∀ v ∈ vars, Accepted v.expr → RegisterInnermost v.expr := by
    intro funcname vars hparse
    rcases parseFetchExpr_ok hparse with htext | rfl
    · exact hvars vars htext
    · exact ⟨fun before v after h => absurd h.symm (by simp), nofun⟩
  have hnamed : ∀ funcname vars, parseFetchExpr s = .ok (funcname, vars) → ∀ v ∈ vars, ∀ a,
      newFetchArg v.varname v.expr = .ok a → NamesRegister a.rules :=
    fun funcname vars hparse v hv a ha =>
      (namesRegister_iff ha).mpr ((hsplit funcname vars hparse).2 v hv (accepted_of_ok ha))
  refine ⟨fun e he hcrash => ?_, hnamed⟩
  cases hparse : parseFetchExpr s with
  | error pe =>
    rw [loadRule, hparse] at he
    cases he
    obtain rfl : pe = .indexOutOfRange := hcrash
    exact hne (parseFetchExpr_crash.mp hparse)
  | ok result =>
    obtain ⟨funcname, vars⟩ := result
    rw [loadRule_eq hparse] at he
    rcases Lib.mapM_cases (fun v : FetchArgExpr => newFetchArg v.varname v.expr) vars with
      ⟨⟨args, hargs⟩, hall⟩ | ⟨before, v, after, fe, hcut, hbefore, hv, hmap⟩
    · rw [fetchArgs, hargs] at he
      dsimp only at he
      cases hload : Bpf.encodeArgs args with
      | ok rules => rw [hload] at he; cases he
      | error le =>
        rw [hload] at he
        cases he
        refine encodeArgs_no_crash (fun a ha => ?_) hload hcrash
        obtain ⟨v, hv, hva⟩ := Lib.mem_of_mapM hargs ha
        exact hnamed funcname vars hparse v hv a hva
    · rw [fetchArgs, hmap] at he
      cases he
      obtain rfl : fe = .indexOutOfRange := hcrash
      rcases newFetchArg_cases v.varname v.expr with ⟨-, a, ha⟩ | ⟨-, e, he, hempty⟩
      · rw [ha] at hv
        cases hv
      · obtain rfl : e = .indexOutOfRange := by
          rw [he] at hv
          exact Except.error.inj hv
        obtain ⟨u, hu, hrejected⟩ :=
          (hsplit funcname vars hparse).1 before v after hcut (hempty.mp rfl)
        obtain ⟨a, ha⟩ := hbefore u hu
        exact hrejected (accepted_of_ok ha)

theorem Handled.text {s : List Char} (h : Handled s) : HandledText s := by
  refine ⟨fun hempty => ?_, fun vars htext => ?_⟩
  · subst hempty
    exact h.no_crash (.parse .indexOutOfRange) rfl rfl
  obtain ⟨funcname, args, hs, hskips, hvars⟩ := htext
  have hparse : parseFetchExpr s = .ok (funcname, vars) := by
    rw [hs]
    exact parseFetchExpr_call hskips hvars
  refine ⟨?_, fun v hv hacc => ?_⟩
  · intro before v after hsplit hempty
    by_contra hall
    have hbefore : ∀ u ∈ before, ∃ a, newFetchArg u.varname u.expr = .ok a := by
      intro u hu
      rcases newFetchArg_cases u.varname u.expr with ⟨-, hok⟩ | ⟨hno, -⟩
      · exact hok
      · exact absurd ⟨u, hu, hno⟩ hall
    have hv : newFetchArg v.varname v.expr = .error .indexOutOfRange := by
      rcases newFetchArg_cases v.varname v.expr with ⟨⟨addr, type, heq, htype, -⟩, -⟩ |
        ⟨-, e, he, hcrash⟩
      · obtain ⟨addr', heq'⟩ := hempty
        rw [heq'] at heq
        cases heq
        obtain ⟨letter, bits, hnil, -⟩ := htype
        cases hnil
      · rw [he, hcrash.mpr hempty]
    refine h.no_crash (.fetch .indexOutOfRange) ?_ rfl
    rw [loadRule_eq hparse, fetchArgs, hsplit, Lib.mapM_error hbefore hv]
  · rcases newFetchArg_cases v.varname v.expr with ⟨-, a, ha⟩ | ⟨hno, -⟩
    · exact (namesRegister_iff ha).mp (h.named funcname vars hparse v hv a ha)
    · exact absurd hacc hno

/-- The rules that are rejected, or accepted, without a crash and without a silent register. -/
theorem handled_iff (s : List Char) : Handled s ↔ HandledText s :=
  ⟨Handled.text, HandledText.handled⟩

/-- Three rules that crash, one in each stage, and one that reads AX without naming it. -/
theorem malformed_rules :
    loadRule [] = .error (.parse .indexOutOfRange) ∧
      loadRule "f(x=(%ax):)".toList = .error (.fetch .indexOutOfRange) ∧
      loadRule "f(x=():u64)".toList = .error (.load .indexOutOfRange) ∧
      (loadRule "f(x=(+8):u64)".toList).toOption.map (fun r => r.2.map (·.reg)) =
        some [Bpf.registerConstants (some .ax)] := by
  refine ⟨rfl, ?_, ?_, ?_⟩
  · with_unfolding_all rfl
  · with_unfolding_all rfl
  · with_unfolding_all rfl

end GoFtrace.Cmd
