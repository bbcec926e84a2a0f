import GoFtrace.Cmd.FetchExpr
import Mathlib.Data.List.Induction

/-!
# Printing fetch rules

The canonical text of a fetch rule, `fn(v1=(EA1):t1, v2=(EA2):t2, ...)`, in which each
address nests its steps outward from a register. Parsing it gives the rule back.

* `pieces_address`: the pieces of a printed address.
* `parse_print`: the round trip.
-/

namespace GoFtrace.Cmd

open Uprobe (Reg FetchArgExpr FetchArg ArgRule newFetchArg newFetchOp newFetchOp_offset
  newFetchOp_register typeSize pieces isParen registerOfName parseInt parseUint digit)

/-! ## Printing -/

/-- A type of `newFetchArg`: a letter and a number of bits. -/
structure FetchType where
  letter : Char
  bits : Nat
  supported : (letter = 'u' ∨ letter = 's') ∧ bits ∈ [8, 16, 32, 64] ∨
    letter = 'c' ∧ bits ∈ [8, 16, 32, 64, 128, 256, 512]

def FetchType.text (t : FetchType) : List Char := t.letter :: Nat.toDigits 10 t.bits

def FetchType.byteSize (t : FetchType) : Int := t.bits / 8

/-- A step from an address outward: an offset, and whether the word there is dereferenced. -/
structure Step where
  offset : Int64
  dereference : Bool

def Step.rule (s : Step) : ArgRule := .stack s.offset.toInt s.dereference

/-- The variable of a rule. -/
structure Variable where
  name : List Char
  plain : ∀ c ∈ name, c ∉ [',', '=', '(', ')']
  trimmed : trimSpace name = name
  reg : Reg
  steps : List Step
  type : FetchType

def regName : Reg → List Char
  | .ax => ['a', 'x'] | .dx => ['d', 'x'] | .cx => ['c', 'x'] | .bx => ['b', 'x']
  | .si => ['s', 'i'] | .di => ['d', 'i'] | .bp => ['b', 'p'] | .sp => ['s', 'p']
  | .r8 => ['r', '8'] | .r9 => ['r', '9'] | .r10 => ['r', '1', '0'] | .r11 => ['r', '1', '1']
  | .r12 => ['r', '1', '2'] | .r13 => ['r', '1', '3'] | .r14 => ['r', '1', '4']
  | .r15 => ['r', '1', '5']

/-- An offset with its sign. -/
def printOffset (off : Int) : List Char :=
  (if off < 0 then '-' else '+') :: Nat.toDigits 10 off.natAbs

/-- The text before the bracket of a step. -/
def Step.text (s : Step) : List Char :=
  (if s.dereference then ['*'] else []) ++ printOffset s.offset.toInt

/-- One turn of the loop of `fetchArgString`. -/
def printStep (inner : List Char) (s : Step) : List Char := s.text ++ '(' :: inner ++ [')']

/-- The nested address. -/
def printAddress (reg : Reg) (steps : List Step) : List Char :=
  steps.foldl printStep ('%' :: regName reg)

namespace Variable

/-- The expression behind the `=`. -/
def expr (v : Variable) : List Char :=
  '(' :: printAddress v.reg v.steps ++ ')' :: ':' :: v.type.text

/-- `fetchArgString`, with a sign in front of every offset. -/
def text (v : Variable) : List Char := v.name ++ '=' :: v.expr

/-- The fetch argument that is written down. -/
def fetchArg (v : Variable) : FetchArg :=
  { varname := String.ofList v.name
    type := String.ofList v.type.text
    size := v.type.byteSize
    rules := .register (some v.reg) :: v.steps.map Step.rule }

end Variable

/-- The canonical text of a rule. -/
def printRule (funcname : List Char) (vars : List Variable) : List Char :=
  funcname ++ '(' :: [',', ' '].intercalate (vars.map Variable.text) ++ [')']

/-! ## Numbers -/

theorem digit_digitChar {d : Nat} (h : d < 10) : digit d.digitChar = some d := by
  revert h
  revert d
  decide

theorem foldlM_digits (n : Nat) :
    (Nat.toDigits 10 n).foldlM (fun n c => (digit c).map (10 * n + ·)) 0 = some n := by
  induction n using Nat.strongRecOn with
  | ind n ih =>
    rcases Nat.lt_or_ge n 10 with hlt | hge
    · rw [Nat.toDigits_of_lt_base hlt, List.foldlM_cons, digit_digitChar hlt]
      simp
    · rw [Nat.toDigits_of_base_le (by decide) hge, List.foldlM_append, ih (n / 10) (by omega)]
      have hmod := digit_digitChar (Nat.mod_lt n (by decide : 10 > 0))
      simp only [Option.bind_eq_bind, Option.bind_some, List.foldlM_cons, hmod, Option.map_some,
        List.foldlM_nil]
      exact congrArg some (Nat.div_add_mod n 10)

theorem parseUint_digits (n : Nat) : parseUint (Nat.toDigits 10 n) = some n := by
  rw [parseUint, if_neg Nat.toDigits_ne_nil, foldlM_digits]

/-- A printed offset is read back. -/
theorem parseInt_printOffset (off : Int64) : parseInt (printOffset off.toInt) = some off.toInt := by
  have hlow := off.le_toInt
  have hhigh := off.toInt_lt
  unfold printOffset
  split
  · rename_i hneg
    rw [parseInt, parseUint_digits, Option.bind_some, if_pos (by omega)]
    congr 1
    omega
  · rw [parseInt, parseUint_digits, Option.bind_some, if_pos (by omega)]
    congr 1
    omega

/-! ## Separators -/

/-- The characters that the parsers split at. -/
def separators : List Char := [',', '=', ':', '(', ')']

/-- A text without the characters of a list is one without those of a smaller list. -/
theorem not_mem_of_sub {k l : List Char} (hsub : k.all l.contains = true) {c : Char}
    (h : c ∉ l) : c ∉ k := fun hmem =>
  h (List.contains_iff_mem.mp (List.all_eq_true.mp hsub c hmem))

theorem not_mem_of_all {t k : List Char} (h : t.all (fun c => !k.contains c) = true) :
    ∀ c ∈ t, c ∉ k := by
  intro c hc hmem
  have hno := List.all_eq_true.mp h c hc
  rw [List.contains_iff_mem.mpr hmem] at hno
  cases hno

theorem digits_plain (n : Nat) : ∀ c ∈ Nat.toDigits 10 n, c.isDigit = true := fun _ hc =>
  Nat.isDigit_of_mem_toDigits (by decide) (by decide) hc

theorem not_separator_of_isDigit {c : Char} (h : c.isDigit = true) : c ∉ separators := by
  intro hmem
  have hnone : separators.all (fun c => !c.isDigit) = true := by decide
  have hno := List.all_eq_true.mp hnone c hmem
  rw [h] at hno
  cases hno

theorem Step.text_plain (s : Step) : ∀ c ∈ s.text, c ∉ separators := by
  intro c hc
  rw [Step.text, printOffset, List.mem_append, List.mem_cons] at hc
  rcases hc with hstar | hsign | hdigit
  · split at hstar
    · rw [List.mem_singleton.mp hstar]
      decide
    · cases hstar
  · subst hsign
    split
    · decide
    · decide
  · exact not_separator_of_isDigit (digits_plain _ c hdigit)

theorem regName_plain (r : Reg) : ∀ c ∈ '%' :: regName r, c ∉ separators := by
  apply not_mem_of_all
  cases r <;> decide

theorem FetchType.text_plain (t : FetchType) : ∀ c ∈ t.text, c ∉ separators := by
  intro c hc
  rcases List.mem_cons.mp hc with rfl | hdigit
  · rcases t.supported with ⟨h | h, -⟩ | ⟨h, -⟩
    all_goals
      rw [h]
      decide
  · exact not_separator_of_isDigit (digits_plain _ c hdigit)

/-- An address has brackets, and no other separator. -/
theorem address_plain (reg : Reg) (steps : List Step) :
    ∀ c ∈ printAddress reg steps, c ∉ [',', '=', ':'] := by
  induction steps using List.reverseRecOn with
  | nil => exact fun c hc => not_mem_of_sub (by decide) (regName_plain reg c hc)
  | append_singleton steps s ih =>
    intro c hc
    rw [printAddress, List.foldl_concat] at hc
    rcases List.mem_append.mp hc with hc | hc
    · rcases List.mem_append.mp hc with hc | hc
      · exact not_mem_of_sub (by decide) (s.text_plain c hc)
      · rcases List.mem_cons.mp hc with rfl | hc
        · decide
        · exact ih c hc
    · rw [List.mem_singleton.mp hc]
      decide

/-! ## The scan back over a printed text -/

/-- The scan back runs through a text. -/
def Neutral (t : List Char) : Prop :=
  ∀ n, 1 ≤ n → ∀ mid, Skips n (t.reverse ++ mid) ↔ Skips n mid

theorem Neutral.nil : Neutral [] := fun _ _ _ => .rfl

theorem Neutral.append {s t : List Char} (hs : Neutral s) (ht : Neutral t) : Neutral (s ++ t) := by
  intro n hn mid
  rw [List.reverse_append, List.append_assoc, ht n hn, hs n hn]

theorem Neutral.singleton {c : Char} (hopen : c ≠ '(') (hclose : c ≠ ')') : Neutral [c] := by
  intro n hn mid
  have hstep : n + [c].count '(' = n + [c].count ')' := by
    simp [hopen, hclose]
  rw [List.reverse_singleton, List.singleton_append, skips_cons hn hstep]
  exact and_iff_left hn

/-- A text without brackets. -/
theorem Neutral.of_plain {t : List Char} (h : ∀ c ∈ t, c ∉ ['(', ')']) : Neutral t := by
  induction t with
  | nil => exact Neutral.nil
  | cons c t ih =>
    have hc := h c List.mem_cons_self
    rw [List.mem_cons, List.mem_singleton, not_or] at hc
    exact (Neutral.singleton hc.1 hc.2).append (ih fun d hd => h d (List.mem_cons_of_mem c hd))

theorem Neutral.of_not_separator {t : List Char} (h : ∀ c ∈ t, c ∉ separators) : Neutral t :=
  Neutral.of_plain fun c hc => not_mem_of_sub (by decide) (h c hc)

/-- A text in brackets. -/
theorem Neutral.bracket {t : List Char} (h : Neutral t) : Neutral ('(' :: t ++ [')']) := by
  intro n hn mid
  have hrev : ('(' :: t ++ [')']).reverse ++ mid = ')' :: (t.reverse ++ '(' :: mid) := by simp
  have hclose : n + 1 + [')'].count '(' = n + [')'].count ')' := rfl
  have hopen : n + ['('].count '(' = n + 1 + ['('].count ')' := rfl
  rw [hrev, skips_cons hn hclose, h (n + 1) (Nat.le_add_left 1 n),
    skips_cons (Nat.le_add_left 1 n) hopen]
  exact ⟨fun hs => hs.1.1, fun hs => ⟨⟨hs, hn⟩, Nat.le_add_left 1 n⟩⟩

theorem Neutral.skips {t : List Char} (h : Neutral t) : Skips 1 t.reverse := by
  have := (h 1 (Nat.le_refl 1) []).mpr (skips_nil.mpr rfl)
  rwa [List.append_nil] at this

theorem Neutral.address (reg : Reg) (steps : List Step) : Neutral (printAddress reg steps) := by
  induction steps using List.reverseRecOn with
  | nil => exact Neutral.of_not_separator (regName_plain reg)
  | append_singleton steps s ih =>
    rw [printAddress, List.foldl_concat, printStep, List.append_assoc]
    exact (Neutral.of_not_separator s.text_plain).append ih.bracket

theorem Neutral.variable (v : Variable) : Neutral v.text := by
  have hname : Neutral v.name :=
    Neutral.of_plain fun c hc => not_mem_of_sub (by decide) (v.plain c hc)
  have haddr := (Neutral.address v.reg v.steps).bracket
  have htype := Neutral.of_not_separator v.type.text_plain
  have hcolon : Neutral [':'] := Neutral.singleton (by decide) (by decide)
  have heq : Neutral ['='] := Neutral.singleton (by decide) (by decide)
  have hall := hname.append (heq.append (haddr.append (hcolon.append htype)))
  simpa [Variable.text, Variable.expr] using hall

theorem Neutral.intercalate {parts : List (List Char)} (h : ∀ p ∈ parts, Neutral p) :
    Neutral ([',', ' '].intercalate parts) := by
  induction parts with
  | nil => exact Neutral.nil
  | cons p ps ih =>
    have hp := h p List.mem_cons_self
    have hps := ih fun q hq => h q (List.mem_cons_of_mem p hq)
    cases ps with
    | nil => simpa using hp
    | cons q ps =>
      rw [List.intercalate_cons_cons]
      exact (hp.append (Neutral.of_plain (not_mem_of_all (by decide)))).append hps

/-! ## The parts of a rule -/

/-- A list with blanks behind its commas splits at the commas. -/
theorem splitOn_intercalate_blank {p : List Char} {ps : List (List Char)}
    (h : ∀ q ∈ p :: ps, ',' ∉ q) :
    ([',', ' '].intercalate (p :: ps)).splitOn ',' = p :: ps.map (' ' :: ·) := by
  induction ps generalizing p with
  | nil =>
    have hp := List.splitOn_eq_singleton (h p List.mem_cons_self)
    simpa using hp
  | cons q ps ih =>
    have hblank : ∀ r ∈ (' ' :: q) :: ps, ',' ∉ r := by
      rintro r hr hmem
      rcases List.mem_cons.mp hr with rfl | hr
      · rcases List.mem_cons.mp hmem with hc | hc
        · revert hc
          decide
        · exact h q (List.mem_cons_of_mem p List.mem_cons_self) hc
      · exact h r (List.mem_cons_of_mem p (List.mem_cons_of_mem q hr)) hmem
    have hrest : [',', ' '].intercalate (p :: q :: ps) =
        p ++ ',' :: [',', ' '].intercalate ((' ' :: q) :: ps) := by
      rw [List.intercalate_cons_cons, List.intercalate_cons_cons_left, List.append_assoc]
      rfl
    rw [hrest, List.splitOn_append_cons_self_of_not_mem (h p List.mem_cons_self), ih hblank]
    rfl

theorem Variable.expr_plain (v : Variable) : ∀ c ∈ v.expr, c ∉ [',', '='] := by
  intro c hc
  rw [Variable.expr, List.cons_append, List.mem_cons, List.mem_append, List.mem_cons,
    List.mem_cons] at hc
  rcases hc with rfl | haddr | rfl | rfl | htype
  · decide
  · exact not_mem_of_sub (by decide) (address_plain v.reg v.steps c haddr)
  · decide
  · decide
  · exact not_mem_of_sub (by decide) (v.type.text_plain c htype)

theorem Variable.no_comma (v : Variable) : ',' ∉ v.text := by
  intro hmem
  rw [Variable.text, List.mem_append, List.mem_cons] at hmem
  rcases hmem with hname | heq | hexpr
  · exact v.plain _ hname (by decide)
  · revert heq
    decide
  · exact v.expr_plain _ hexpr (by decide)

theorem trimSpace_blank (s : List Char) : trimSpace (' ' :: s) = trimSpace s := rfl

/-- A digit is no blank. -/
theorem not_isSpace_of_isDigit {c : Char} (h : c.isDigit = true) : isSpace c = false := by
  have hbounds : 48 ≤ c.toNat ∧ c.toNat ≤ 57 := by
    simpa [Char.isDigit, UInt32.le_iff_toNat_le] using h
  simp only [isSpace, Bool.or_eq_false_iff, Bool.and_eq_false_iff, decide_eq_false_iff_not,
    beq_eq_false_iff_ne]
  omega

/-- An expression has no blanks around it. -/
theorem Variable.expr_trimmed (v : Variable) : trimSpace v.expr = v.expr := by
  have hlast : ∀ hne, isSpace (v.expr.getLast hne) = false := by
    intro hne
    apply not_isSpace_of_isDigit
    apply digits_plain v.type.bits
    have hdigits : Nat.toDigits 10 v.type.bits ≠ [] := Nat.toDigits_ne_nil
    have hsplit : v.expr = ('(' :: printAddress v.reg v.steps ++ [')', ':', v.type.letter]) ++
        Nat.toDigits 10 v.type.bits := by
      simp [Variable.expr, FetchType.text]
    simp only [hsplit]
    rw [List.getLast_append_of_ne_nil _ hdigits]
    exact List.getLast_mem hdigits
  have hfirst : v.expr.dropWhile isSpace = v.expr := rfl
  rw [trimSpace, hfirst, List.rdropWhile_eq_self_iff]
  intro hne
  rw [hlast hne]
  decide

/-- The expression that is parsed from a part. -/
def Variable.fetchArgExpr (v : Variable) : FetchArgExpr :=
  { varname := String.ofList v.name, expr := String.ofList v.expr }

/-- A part with or without the blank behind the comma. -/
theorem variableText (v : Variable) {name : List Char}
    (hname : name = v.name ∨ name = ' ' :: v.name) :
    VariableText (name ++ '=' :: v.expr) v.fetchArgExpr := by
  have htrim : trimSpace name = v.name := by
    rcases hname with rfl | rfl
    · exact v.trimmed
    · exact (trimSpace_blank v.name).trans v.trimmed
  have hmem : '=' ∉ name := by
    have hplain : '=' ∉ v.name := fun h => v.plain _ h (by decide)
    rcases hname with rfl | rfl
    · exact hplain
    · rw [List.mem_cons, not_or]
      exact ⟨by decide, hplain⟩
  refine ⟨name, v.expr, ?_, ?_⟩
  · rw [List.splitOn_append_cons_self_of_not_mem hmem,
      List.splitOn_eq_singleton fun h => v.expr_plain _ h (by decide)]
  · rw [htrim, v.expr_trimmed]
    rfl

/-- The parts of a printed rule. -/
theorem variables_print (v : Variable) (vars : List Variable) :
    List.Forall₂ VariableText
      (([',', ' '].intercalate ((v :: vars).map Variable.text)).splitOn ',')
      ((v :: vars).map Variable.fetchArgExpr) := by
  rw [List.map_cons, splitOn_intercalate_blank]
  · refine .cons (variableText v (.inl rfl)) ?_
    rw [List.map_map, List.forall₂_map_left_iff, List.forall₂_map_right_iff, List.forall₂_same]
    exact fun w _ => variableText w (.inr rfl)
  · intro q hq
    rw [← List.map_cons, List.mem_map] at hq
    obtain ⟨w, -, rfl⟩ := hq
    exact w.no_comma

/-! ## The rules of an address -/

theorem newFetchOp_step (s : Step) : newFetchOp s.text = .ok s.rule := by
  have hint := parseInt_printOffset s.offset
  unfold Step.text Step.rule
  cases s.dereference with
  | true =>
    change newFetchOp ('*' :: printOffset s.offset.toInt) = _
    rw [newFetchOp, hint]
  | false =>
    change newFetchOp (printOffset s.offset.toInt) = _
    rw [printOffset] at hint ⊢
    rw [newFetchOp_offset _ _, hint]
    · split <;> decide
    · split <;> decide

theorem registerOfName_regName (r : Reg) : registerOfName (regName r) = some r := by
  cases r <;> with_unfolding_all rfl

theorem pieces_bracketed {inner : List Char} {pre : List Char} (h : ∀ c ∈ pre, c ∉ separators)
    (hne : pre ≠ []) : pieces (pre ++ '(' :: inner ++ [')']) = pre :: pieces (inner ++ [')']) := by
  have hpre : ∀ c ∈ pre, isParen c = false := by
    intro c hc
    have hsep := h c hc
    simp only [separators, List.mem_cons, not_or] at hsep
    simp [isParen, hsep]
  rw [List.append_assoc, List.cons_append, Uprobe.pieces_append_paren hpre rfl, if_neg hne]
  rfl

/-- A closing bracket at the end adds no piece. -/
theorem pieces_concat (t : List Char) : pieces (t ++ [')']) = pieces t := by
  rw [pieces, List.splitOnP_append_cons _ _ (by decide), List.filter_append]
  simp [pieces]

/-- The pieces of a printed address, the innermost first. -/
theorem pieces_address (reg : Reg) (steps : List Step) :
    (pieces (printAddress reg steps)).reverse = ('%' :: regName reg) :: steps.map Step.text := by
  induction steps using List.reverseRecOn with
  | nil => cases reg <;> rfl
  | append_singleton steps s ih =>
    have hne : s.text ≠ [] := by
      rw [Step.text, printOffset]
      simp
    rw [printAddress, List.foldl_concat, printStep, pieces_bracketed s.text_plain hne,
      pieces_concat, List.reverse_cons]
    rw [printAddress] at ih
    rw [ih, List.map_append]
    rfl

/-- A printed number is read back without a sign. -/
theorem parseInt_digits {n : Nat} (h : n < 2 ^ 63) :
    parseInt (Nat.toDigits 10 n) = some (n : Int) := by
  have hplain := digits_plain n
  unfold parseInt
  split
  · rename_i rest heq
    rw [heq] at hplain
    exact absurd (hplain '-' List.mem_cons_self) (by decide)
  · rename_i rest heq
    rw [heq] at hplain
    exact absurd (hplain '+' List.mem_cons_self) (by decide)
  · rw [parseUint_digits, Option.bind_some, if_pos h]

theorem contains_digits {n : Nat} {sizes : List Nat} {names : List String} (h : n ∈ sizes)
    (hnames : (sizes.map fun m => String.ofList (Nat.toDigits 10 m)) = names) :
    names.contains (String.ofList (Nat.toDigits 10 n)) = true := by
  rw [← hnames]
  exact List.contains_iff_mem.mpr (List.mem_map_of_mem h)

theorem typeSize_text (t : FetchType) : typeSize t.text = .ok t.byteSize := by
  obtain ⟨letter, bits, h⟩ := t
  have hbits : bits < 2 ^ 63 := by
    have hints : ∀ n ∈ [8, 16, 32, 64], n < 2 ^ 63 := by decide
    have hchars : ∀ n ∈ [8, 16, 32, 64, 128, 256, 512], n < 2 ^ 63 := by decide
    rcases h with ⟨-, h⟩ | ⟨-, h⟩
    · exact hints bits h
    · exact hchars bits h
  unfold typeSize FetchType.text
  dsimp only
  rw [parseInt_digits hbits]
  rcases h with ⟨hletter, h⟩ | ⟨rfl, h⟩
  · rw [if_pos hletter, if_pos (contains_digits h (by decide))]
    rfl
  · rw [if_neg (by decide), if_pos rfl, if_pos (contains_digits h (by decide))]
    rfl

/-- A printed expression is read back. -/
theorem newFetchArg_print (v : Variable) :
    newFetchArg v.fetchArgExpr.varname v.fetchArgExpr.expr = .ok v.fetchArg := by
  have hcolon : ':' ∉ '(' :: printAddress v.reg v.steps ++ [')'] := by
    intro hmem
    rw [List.cons_append, List.mem_cons, List.mem_append, List.mem_singleton] at hmem
    rcases hmem with hc | hc | hc
    · revert hc
      decide
    · exact address_plain v.reg v.steps _ hc (by decide)
    · revert hc
      decide
  have htype : ':' ∉ v.type.text := fun h => v.type.text_plain _ h (by decide)
  have hsplit : v.expr.splitOn ':' =
      ['(' :: printAddress v.reg v.steps ++ [')'], v.type.text] := by
    have hexpr : v.expr =
        ('(' :: printAddress v.reg v.steps ++ [')']) ++ ':' :: v.type.text := by
      simp [Variable.expr]
    rw [hexpr, List.splitOn_append_cons_self_of_not_mem hcolon, List.splitOn_eq_singleton htype]
  have hpieces : pieces ('(' :: printAddress v.reg v.steps ++ [')']) =
      pieces (printAddress v.reg v.steps) := by
    rw [pieces_concat]
    have hopen := @Uprobe.pieces_append_paren [] (fun c hc => absurd hc List.not_mem_nil) '(' rfl
      (printAddress v.reg v.steps)
    simpa using hopen
  have hops : (pieces (printAddress v.reg v.steps)).mapM newFetchOp =
      .ok (v.fetchArg.rules.reverse) := by
    rw [Lib.mapM_ok_iff, ← List.forall₂_reverse_iff, List.reverse_reverse, pieces_address]
    refine .cons (newFetchOp_register (registerOfName_regName v.reg)) ?_
    rw [List.forall₂_map_left_iff, List.forall₂_map_right_iff, List.forall₂_same]
    exact fun s _ => newFetchOp_step s
  have hscan := @Uprobe.scanOps_eq [] (fun c hc => absurd hc List.not_mem_nil)
    ('(' :: printAddress v.reg v.steps ++ [')']) []
  rw [List.nil_append, hpieces, hops] at hscan
  unfold newFetchArg Variable.fetchArgExpr
  dsimp only
  rw [String.toList_ofList, hsplit]
  dsimp only
  rw [typeSize_text, hscan]
  change Except.ok (_ : FetchArg) = _
  rw [List.nil_append, List.reverse_reverse]
  rfl

/-! ## The round trip -/

/-- Parsing undoes printing. -/
theorem parse_print (funcname : List Char) (vars : List Variable) (hne : vars ≠ []) :
    ∃ exprs, parseFetchExpr (printRule funcname vars) = .ok (funcname, exprs) ∧
      fetchArgs exprs = .ok (vars.map Variable.fetchArg) := by
  obtain ⟨v, rest, rfl⟩ := List.exists_cons_of_ne_nil hne
  have hneutral : Neutral ([',', ' '].intercalate ((v :: rest).map Variable.text)) := by
    refine Neutral.intercalate fun p hp => ?_
    obtain ⟨w, -, rfl⟩ := List.mem_map.mp hp
    exact Neutral.variable w
  refine ⟨(v :: rest).map Variable.fetchArgExpr, ?_, ?_⟩
  · exact parseFetchExpr_call hneutral.skips (variables_print v rest)
  · rw [fetchArgs, Lib.mapM_ok_iff, List.forall₂_map_left_iff, List.forall₂_map_right_iff,
      List.forall₂_same]
    exact fun w _ => newFetchArg_print w

/-- A method with a field behind a pointer. -/
theorem parse_print_method :
    let name : Variable :=
      { name := "s.name".toList, plain := not_mem_of_all (by decide)
        trimmed := by decide, reg := .ax
        steps := [⟨8, true⟩, ⟨-16, false⟩], type := ⟨'c', 64, by decide⟩ }
    printRule "main.(*T).M".toList [name] =
        "main.(*T).M(s.name=(-16(*+8(%ax))):c64)".toList ∧
      ∃ exprs, parseFetchExpr (printRule "main.(*T).M".toList [name]) =
          .ok ("main.(*T).M".toList, exprs) ∧
        fetchArgs exprs = .ok [name.fetchArg] :=
  ⟨by with_unfolding_all rfl, parse_print _ [_] (List.cons_ne_nil _ _)⟩

end GoFtrace.Cmd
