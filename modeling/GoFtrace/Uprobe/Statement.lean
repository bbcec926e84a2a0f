import GoFtrace.Lib.Traverse
import GoFtrace.Uprobe.FetchArg
import Mathlib.Algebra.Group.Nat.Defs

/-!
# Fetch statements

`newFetchArg` of `internal/uprobe/fetcharg.go`: a statement `(expr):type` of the user becomes
a chain of rules.

* `newFetchArg_ok`: the chain of an accepted statement, piece by piece.
* `newFetchArg_error`, `FetchError.text_part`: the error of a rejected statement names the part
  of it that is at fault.
-/

namespace GoFtrace.Uprobe

/-- The errors of `newFetchArg`. -/
inductive FetchError where
  | typeNotFound (statement : String)
  | intBits (argType : String)
  | charBits (argType : String)
  | kind (argType : String)
  /-- `argType[0]` of an empty type. -/
  | indexOutOfRange
  | emptyOp
  | unknownRegister (name : String)
  /-- An error of `strconv`. -/
  | number (text : String)
  deriving DecidableEq, Repr

/-! ## Numbers and names -/

def digit (c : Char) : Option Nat :=
  if '0' ≤ c ∧ c ≤ '9' then some (c.toNat - '0'.toNat) else none

/-- A non-empty run of decimal digits. -/
def parseUint (s : List Char) : Option Nat :=
  if s = [] then none else s.foldlM (fun n c => (digit c).map (10 * n + ·)) 0

/-- `strconv.ParseInt(s, 10, 64)`. -/
def parseInt (s : List Char) : Option Int :=
  match s with
  | '-' :: rest => (parseUint rest).bind fun n => if n ≤ 2 ^ 63 then some (-(n : Int)) else none
  | '+' :: rest => (parseUint rest).bind fun n => if n < 2 ^ 63 then some (n : Int) else none
  | _ => (parseUint s).bind fun n => if n < 2 ^ 63 then some (n : Int) else none

/-- Whether the digits of a number that is not accepted leave the range before another character
is met. -/
def leavesRange : List Char → Nat → Bool
  | [], _ => true
  | c :: rest, n =>
    match digit c with
    | none => false
    | some d => 2 ^ 64 ≤ 10 * n + d || leavesRange rest (10 * n + d)

/-- Why `strconv.ParseInt` does not accept a text. -/
def numberProblem (s : List Char) : String :=
  let digits := if s.head? = some '-' ∨ s.head? = some '+' then s.tail else s
  if digits ≠ [] ∧ leavesRange digits 0 then "value out of range" else "invalid syntax"

/-- The escapes of `strconv.Quote`. -/
def escapes : List (Nat × String) :=
  [(7, "\\a"), (8, "\\b"), (9, "\\t"), (10, "\\n"), (11, "\\v"), (12, "\\f"), (13, "\\r"),
    (34, "\\\""), (92, "\\\\")]

/-- A character as `strconv.Quote` writes it. All characters above ASCII are taken to be
printable. -/
def quoteChar (c : Char) : String :=
  match escapes.lookup c.toNat with
  | some escape => escape
  | none =>
    if c.toNat < 32 ∨ c.toNat = 127 then
      "\\x" ++ String.ofList [Nat.digitChar (c.toNat / 16), Nat.digitChar (c.toNat % 16)]
    else String.singleton c

/-- `strconv.Quote`. -/
def quote (s : List Char) : String := "\"" ++ String.join (s.map quoteChar) ++ "\""

def FetchError.text : FetchError → String
  | .typeNotFound statement => "type not found: " ++ statement
  | .intBits argType => "only support 8/16/32/64 bits for u/s type: " ++ argType
  | .charBits argType => "only support 8/16/32/64/128/256/512 bits for c type: " ++ argType
  | .kind argType => "only support u/s/c type: " ++ argType
  | .indexOutOfRange => "index out of range"
  | .emptyOp => "invalid op: empty"
  | .unknownRegister name => "unknown register: " ++ name
  | .number text =>
    "strconv.ParseInt: parsing " ++ quote text.toList ++ ": " ++ numberProblem text.toList

/-- The part of the statement that an error is about. -/
def FetchError.part : FetchError → String
  | .typeNotFound statement => statement
  | .intBits argType | .charBits argType | .kind argType => argType
  | .indexOutOfRange | .emptyOp => ""
  | .unknownRegister name => name
  | .number text => text

/-- The text of an error names that part; a number is quoted. -/
theorem FetchError.text_part (e : FetchError) :
    ∃ before after, e.text = before ++ e.part ++ after ∨
      e.text = before ++ quote e.part.toList ++ after := by
  cases e with
  | number text => exact ⟨_, _, .inr String.append_assoc⟩
  | indexOutOfRange => exact ⟨_, "", .inl (String.append_empty.trans String.append_empty).symm⟩
  | emptyOp => exact ⟨_, "", .inl (String.append_empty.trans String.append_empty).symm⟩
  | _ => exact ⟨_, "", .inl String.append_empty.symm⟩

/-- The registers that `newFetchOp` knows. -/
def registerNames : List (String × Reg) :=
  [("ax", .ax), ("bx", .bx), ("cx", .cx), ("dx", .dx), ("si", .si), ("di", .di), ("bp", .bp),
    ("sp", .sp), ("r8", .r8), ("r9", .r9), ("r10", .r10), ("r11", .r11), ("r12", .r12),
    ("r13", .r13), ("r14", .r14), ("r15", .r15)]

def registerOfName (name : List Char) : Option Reg := registerNames.lookup (String.ofList name)

/-! ## Parsing -/

/-- `newFetchOp`. -/
def newFetchOp : List Char → Except FetchError ArgRule
  | [] => .error .emptyOp
  | '%' :: name =>
    match registerOfName name with
    | some r => .ok (.register (some r))
    | none => .error (.unknownRegister (String.ofList name))
  | '*' :: op =>
    match parseInt op with
    | some off => .ok (.stack off true)
    | none => .error (.number (String.ofList op))
  | op =>
    match parseInt op with
    | some off => .ok (.stack off false)
    | none => .error (.number (String.ofList op))

/-- The check of the type and `targetSize`. -/
def typeSize : List Char → Except FetchError Int
  | [] => .error .indexOutOfRange
  | letter :: bits =>
    let argType := String.ofList (letter :: bits)
    let size :=
      match parseInt bits with
      | some n => .ok (n / 8)
      | none => .error (.number (String.ofList bits))
    if letter = 'u' ∨ letter = 's' then
      if ["8", "16", "32", "64"].contains (String.ofList bits) then size
      else .error (.intBits argType)
    else if letter = 'c' then
      if ["8", "16", "32", "64", "128", "256", "512"].contains (String.ofList bits) then size
      else .error (.charBits argType)
    else .error (.kind argType)

/-- The loop of `newFetchArg` over the address: `buf` is the piece read so far. -/
def scanOps : List Char → List Char → List ArgRule → Except FetchError (List ArgRule)
  | [], buf, rules =>
    if buf = [] then .ok rules
    else do
      let op ← newFetchOp buf
      return rules ++ [op]
  | ch :: rest, buf, rules =>
    if ch ≠ '(' ∧ ch ≠ ')' then scanOps rest (buf ++ [ch]) rules
    else if buf = [] then scanOps rest [] rules
    else do
      let op ← newFetchOp buf
      scanOps rest [] (rules ++ [op])

/-- `newFetchArg`. -/
def newFetchArg (varname statement : String) : Except FetchError FetchArg :=
  match statement.toList.splitOn ':' with
  | [argAddr, argType] => do
    let targetSize ← typeSize argType
    let rules ← scanOps argAddr [] []
    return { varname := varname, type := String.ofList argType, size := targetSize
             rules := rules.reverse }
  | _ => .error (.typeNotFound statement)

/-- `FetchArgExpr`. -/
structure FetchArgExpr where
  varname : String
  expr : String

/-- `parseFetchArgs`, over the entries of the map. -/
def parseFetchArgs (funcParams : List (String × List FetchArgExpr)) :
    Except FetchError (List (String × List FetchArg)) :=
  funcParams.mapM fun (fname, exprs) => do
    let args ← exprs.mapM fun e => newFetchArg e.varname e.expr
    return (fname, args)

/-! ## Pieces -/

def isParen (c : Char) : Bool := c == '(' || c == ')'

/-- The pieces of an address between its brackets, the outermost first. -/
def pieces (argAddr : List Char) : List (List Char) :=
  (argAddr.splitOnP isParen).filter fun p => !p.isEmpty

section
variable {buf : List Char} (hbuf : ∀ c ∈ buf, isParen c = false)
include hbuf

theorem pieces_of_no_paren : pieces buf = if buf = [] then [] else [buf] := by
  rw [pieces, List.splitOnP_eq_singleton hbuf]
  cases buf <;> rfl

theorem pieces_append_paren {c : Char} (h : isParen c = true) (rest : List Char) :
    pieces (buf ++ c :: rest) = (if buf = [] then [] else [buf]) ++ pieces rest := by
  rw [pieces, List.splitOnP_append_cons_of_forall_mem hbuf c h]
  cases buf <;> rfl

/-- The loop reads the pieces one after the other. -/
theorem scanOps_eq (argAddr : List Char) (rules : List ArgRule) :
    scanOps argAddr buf rules =
      (pieces (buf ++ argAddr)).mapM newFetchOp >>= fun ops => .ok (rules ++ ops) := by
  induction argAddr generalizing buf rules with
  | nil =>
    rw [List.append_nil, pieces_of_no_paren hbuf, scanOps]
    split
    · simp
    · rw [List.mapM_cons]
      cases newFetchOp buf <;> rfl
  | cons ch rest ih =>
    rw [scanOps]
    split
    · rename_i h
      have hch : isParen ch = false := by simp [isParen, h.1, h.2]
      rw [ih (fun c hc => ?_), List.append_assoc]
      · rfl
      · rcases List.mem_append.mp hc with hc | hc
        · exact hbuf c hc
        · rw [List.mem_singleton.mp hc]
          exact hch
    · rename_i h
      have hch : isParen ch = true := by
        by_cases h₁ : ch = '('
        · simp [isParen, h₁]
        · have h₂ : ch = ')' := by simpa [h₁] using h
          simp [isParen, h₂]
      rw [pieces_append_paren hbuf hch]
      split
      · rw [ih (fun c hc => absurd hc List.not_mem_nil)]
        rfl
      · rw [List.singleton_append, List.mapM_cons]
        cases newFetchOp buf with
        | error e => rfl
        | ok op =>
          have hnext := @ih [] (fun c hc => absurd hc List.not_mem_nil) (rules ++ [op])
          rw [List.nil_append] at hnext
          refine hnext.trans ?_
          cases (pieces rest).mapM newFetchOp with
          | error e => rfl
          | ok ops =>
            change Except.ok (rules ++ [op] ++ ops) = Except.ok (rules ++ op :: ops)
            rw [List.append_assoc, List.singleton_append]

end

/-- An accepted statement: its type has a size, and its pieces, the innermost first, are the
rules. -/
theorem newFetchArg_ok {varname statement : String} {a : FetchArg}
    (h : newFetchArg varname statement = .ok a) :
    ∃ argAddr argType, statement.toList.splitOn ':' = [argAddr, argType] ∧
      typeSize argType = .ok a.size ∧
      List.Forall₂ (fun piece rule => newFetchOp piece = .ok rule) (pieces argAddr).reverse
        a.rules ∧
      a.nilCheck = false ∧ a.ifaceData = false := by
  unfold newFetchArg at h
  split at h
  · rename_i argAddr argType hsplit
    cases hsize : typeSize argType with
    | error e => rw [hsize] at h; cases h
    | ok size =>
      rw [hsize, scanOps_eq (fun c hc => absurd hc List.not_mem_nil), List.nil_append] at h
      cases hops : (pieces argAddr).mapM newFetchOp with
      | error e => rw [hops] at h; cases h
      | ok ops =>
        rw [hops] at h
        cases h
        exact ⟨argAddr, argType, hsplit, hsize, List.rel_reverse (Lib.mapM_ok hops), rfl, rfl⟩
  · cases h

/-! ## Errors -/

theorem newFetchOp_error {op : List Char} {e : FetchError} (h : newFetchOp op = .error e) :
    e.part.toList <:+: op := by
  unfold newFetchOp at h
  split at h
  · cases h
    exact List.nil_infix
  · split at h
    · cases h
    · cases h
      exact String.toList_ofList ▸ (List.suffix_cons _ _).isInfix
  · split at h
    · cases h
    · cases h
      exact String.toList_ofList ▸ (List.suffix_cons _ _).isInfix
  · split at h
    · cases h
    · cases h
      exact String.toList_ofList ▸ List.infix_refl _

theorem scanOps_error {argAddr buf : List Char} {rules : List ArgRule} {e : FetchError}
    (h : scanOps argAddr buf rules = .error e) : e.part.toList <:+: buf ++ argAddr := by
  induction argAddr generalizing buf rules with
  | nil =>
    rw [scanOps] at h
    split at h
    · cases h
    cases hop : newFetchOp buf with
    | ok op => rw [hop] at h; cases h
    | error e' =>
      rw [hop] at h
      cases h
      rw [List.append_nil]
      exact newFetchOp_error hop
  | cons ch rest ih =>
    rw [scanOps] at h
    split at h
    · have hrest := ih h
      rwa [List.append_assoc] at hrest
    split at h
    · exact (ih h).trans (List.infix_append_of_infix_right (List.suffix_cons _ _).isInfix)
    cases hop : newFetchOp buf with
    | ok op =>
      rw [hop] at h
      exact (ih h).trans (List.infix_append_of_infix_right (List.suffix_cons _ _).isInfix)
    | error e' =>
      rw [hop] at h
      cases h
      exact List.infix_append_of_infix_left (newFetchOp_error hop)

theorem typeSize_error {argType : List Char} {e : FetchError} (h : typeSize argType = .error e) :
    e.part.toList <:+: argType := by
  cases argType with
  | nil =>
    cases h
    exact List.nil_infix
  | cons letter bits =>
    have hnumber : (match parseInt bits with
        | some n => Except.ok (n / 8)
        | none => Except.error (FetchError.number (String.ofList bits))) = .error e →
        e.part.toList <:+: letter :: bits := by
      intro hsize
      split at hsize
      · cases hsize
      · cases hsize
        exact String.toList_ofList ▸ (List.suffix_cons _ _).isInfix
    rw [typeSize] at h
    have hwhole : (String.ofList (letter :: bits)).toList <:+: letter :: bits :=
      String.toList_ofList ▸ List.infix_refl _
    split at h
    · split at h
      · exact hnumber h
      · cases h
        exact hwhole
    · split at h
      · split at h
        · exact hnumber h
        · cases h
          exact hwhole
      · cases h
        exact hwhole

/-- A statement is rejected for a part of it. -/
theorem newFetchArg_error {varname statement : String} {e : FetchError}
    (h : newFetchArg varname statement = .error e) : e.part.toList <:+: statement.toList := by
  unfold newFetchArg at h
  split at h
  · rename_i argAddr argType hsplit
    have hstatement : [':'].intercalate (statement.toList.splitOn ':') = statement.toList :=
      List.intercalate_splitOn ':'
    have hparts : [':'].intercalate [argAddr, argType] = argAddr ++ ':' :: argType := by
      simp [List.intercalate]
    rw [hsplit, hparts] at hstatement
    rw [← hstatement]
    cases hsize : typeSize argType with
    | error e' =>
      rw [hsize] at h
      cases h
      exact (typeSize_error hsize).trans
        (List.infix_append_of_infix_right (List.suffix_cons _ _).isInfix)
    | ok size =>
      rw [hsize] at h
      cases hops : scanOps argAddr [] [] with
      | error e' =>
        rw [hops] at h
        cases h
        exact List.infix_append_of_infix_left (scanOps_error hops)
      | ok ops => rw [hops] at h; cases h
  · cases h
    exact List.infix_refl _

/-! ## Sizes -/

theorem parseInt_bits {bits : List Char}
    (h : ["8", "16", "32", "64", "128", "256", "512"].contains (String.ofList bits) = true) :
    ∃ n : Int, parseInt bits = some n ∧ 8 ≤ n ∧ n ≤ 512 := by
  have hbits : ∀ s : String, String.ofList bits = s → bits = s.toList := fun s hs => by
    rw [← hs, String.toList_ofList]
  simp only [List.contains_iff_mem, List.mem_cons, List.not_mem_nil, or_false] at h
  rcases h with h | h | h | h | h | h | h
  · exact ⟨8, by rw [hbits _ h]; rfl, by decide, by decide⟩
  · exact ⟨16, by rw [hbits _ h]; rfl, by decide, by decide⟩
  · exact ⟨32, by rw [hbits _ h]; rfl, by decide, by decide⟩
  · exact ⟨64, by rw [hbits _ h]; rfl, by decide, by decide⟩
  · exact ⟨128, by rw [hbits _ h]; rfl, by decide, by decide⟩
  · exact ⟨256, by rw [hbits _ h]; rfl, by decide, by decide⟩
  · exact ⟨512, by rw [hbits _ h]; rfl, by decide, by decide⟩

/-- The sizes of the types. -/
theorem typeSize_bounds {argType : List Char} {size : Int} (h : typeSize argType = .ok size) :
    0 < size ∧ size ≤ 64 := by
  cases argType with
  | nil => cases h
  | cons letter bits =>
    rw [typeSize] at h
    have hall : ∀ names : List String,
        (∀ s ∈ names, s ∈ ["8", "16", "32", "64", "128", "256", "512"]) →
        names.contains (String.ofList bits) = true →
        (match parseInt bits with
          | some n => Except.ok (n / 8)
          | none => Except.error (FetchError.number (String.ofList bits))) = .ok size →
        0 < size ∧ size ≤ 64 := by
      intro names hsub hmem hsize
      rw [List.contains_iff_mem] at hmem
      obtain ⟨n, hn, hlow, hhigh⟩ := parseInt_bits (List.contains_iff_mem.mpr (hsub _ hmem))
      rw [hn] at hsize
      cases hsize
      omega
    split at h
    · split at h
      · rename_i hmem
        exact hall _ (by simp) hmem h
      · cases h
    · split at h
      · split at h
        · rename_i hmem
          exact hall _ (fun _ hs => hs) hmem h
        · cases h
      · cases h

end GoFtrace.Uprobe
