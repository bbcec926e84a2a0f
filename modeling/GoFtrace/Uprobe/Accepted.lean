import GoFtrace.Uprobe.Statement

/-!
# Accepted statements

The texts that `newFetchArg` takes, told without running it.

* `newFetchArg_cases`: what becomes of a statement.
* `namesRegister_iff`: the accepted ones whose chain starts at a register.
-/

namespace GoFtrace.Uprobe

/-! ## Texts -/

/-- A register that `newFetchOp` knows. -/
def RegisterText (piece : List Char) : Prop :=
  ∃ name r, piece = '%' :: name ∧ registerOfName name = some r

/-- An offset, with or without a dereference. -/
def StepText (piece : List Char) : Prop :=
  (∃ op off, piece = '*' :: op ∧ parseInt op = some off) ∨
    piece.head? ≠ some '%' ∧ piece.head? ≠ some '*' ∧ ∃ off, parseInt piece = some off

abbrev intBits : List String := ["8", "16", "32", "64"]

abbrev charBits : List String := ["8", "16", "32", "64", "128", "256", "512"]

/-- The types that `newFetchArg` supports. -/
def SupportedType (argType : List Char) : Prop :=
  ∃ letter bits, argType = letter :: bits ∧
    ((letter = 'u' ∨ letter = 's') ∧ String.ofList bits ∈ intBits ∨
      letter = 'c' ∧ String.ofList bits ∈ charBits)

/-- One colon, a supported type, and pieces that are registers and steps. -/
def Accepted (expr : String) : Prop :=
  ∃ argAddr argType, expr.toList.splitOn ':' = [argAddr, argType] ∧ SupportedType argType ∧
    ∀ piece ∈ pieces argAddr, RegisterText piece ∨ StepText piece

/-- One colon with nothing behind it. -/
def EmptyType (expr : String) : Prop := ∃ argAddr, expr.toList.splitOn ':' = [argAddr, []]

/-- The innermost piece of the address is a register, and the others are steps. -/
def RegisterInnermost (expr : String) : Prop :=
  ∀ argAddr argType, expr.toList.splitOn ':' = [argAddr, argType] →
    ∃ steps reg, pieces argAddr = steps ++ [reg] ∧ RegisterText reg ∧ ∀ p ∈ steps, StepText p

theorem newFetchOp_register {name : List Char} {r : Reg} (h : registerOfName name = some r) :
    newFetchOp ('%' :: name) = .ok (.register (some r)) := by
  rw [newFetchOp, h]

/-- An offset without a star. -/
theorem newFetchOp_offset {c : Char} {rest : List Char} (hreg : c ≠ '%') (hstar : c ≠ '*') :
    newFetchOp (c :: rest) = match parseInt (c :: rest) with
      | some off => .ok (.stack off false)
      | none => .error (.number (String.ofList (c :: rest))) := by
  unfold newFetchOp
  split
  · rename_i h; cases h
  · rename_i h; cases h; exact absurd rfl hreg
  · rename_i h; cases h; exact absurd rfl hstar
  · rfl

theorem not_step_percent (rest : List Char) : ¬ StepText ('%' :: rest) := by
  rintro (⟨op, off, h, -⟩ | ⟨h, -⟩)
  · cases h
  · exact h rfl

theorem not_register {c : Char} (h : c ≠ '%') (rest : List Char) : ¬ RegisterText (c :: rest) := by
  rintro ⟨name, r, heq, -⟩
  cases heq
  exact h rfl

/-- What a piece becomes: a register, a step, or an error that is no crash. -/
theorem newFetchOp_cases (piece : List Char) :
    (RegisterText piece ∧ ∃ r, newFetchOp piece = .ok (.register (some r))) ∨
      (StepText piece ∧ ¬ RegisterText piece ∧ ∃ off d, newFetchOp piece = .ok (.stack off d)) ∨
      (¬ RegisterText piece ∧ ¬ StepText piece ∧
        ∃ e, newFetchOp piece = .error e ∧ e ≠ .indexOutOfRange) := by
  cases piece with
  | nil =>
    refine .inr (.inr ⟨?_, ?_, .emptyOp, rfl, nofun⟩)
    · rintro ⟨name, r, heq, -⟩
      cases heq
    · rintro (⟨op, off, heq, -⟩ | ⟨-, -, off, heq⟩)
      · cases heq
      · cases heq
  | cons c rest =>
    by_cases hreg : c = '%'
    · subst hreg
      cases hname : registerOfName rest with
      | some r => exact .inl ⟨⟨rest, r, rfl, hname⟩, r, newFetchOp_register hname⟩
      | none =>
        refine .inr (.inr ⟨?_, not_step_percent rest, .unknownRegister (String.ofList rest), ?_,
          nofun⟩)
        · rintro ⟨name, r, heq, hr⟩
          cases heq
          rw [hname] at hr
          cases hr
        · rw [newFetchOp, hname]
    by_cases hstar : c = '*'
    · subst hstar
      cases hint : parseInt rest with
      | some off =>
        refine .inr (.inl ⟨.inl ⟨rest, off, rfl, hint⟩, not_register hreg rest, off, true, ?_⟩)
        rw [newFetchOp, hint]
      | none =>
        refine .inr (.inr ⟨not_register hreg rest, ?_, .number (String.ofList rest), ?_, nofun⟩)
        · rintro (⟨op, off, heq, hop⟩ | ⟨-, h, -⟩)
          · cases heq
            rw [hint] at hop
            cases hop
          · exact h rfl
        · rw [newFetchOp, hint]
    · have hop := @newFetchOp_offset c rest hreg hstar
      cases hint : parseInt (c :: rest) with
      | some off =>
        rw [hint] at hop
        have hstep : StepText (c :: rest) :=
          .inr ⟨fun h => hreg (Option.some.inj h), fun h => hstar (Option.some.inj h), off, hint⟩
        exact .inr (.inl ⟨hstep, not_register hreg rest, off, false, hop⟩)
      | none =>
        rw [hint] at hop
        refine .inr (.inr ⟨not_register hreg rest, ?_, _, hop, nofun⟩)
        rintro (⟨op, off, heq, -⟩ | ⟨-, -, off, h⟩)
        · cases heq
          exact hstar rfl
        · rw [hint] at h
          cases h

/-- The types with a size are the supported ones; only the empty type crashes. -/
theorem typeSize_cases (argType : List Char) :
    (SupportedType argType ∧ ∃ n, typeSize argType = .ok n) ∨
      (¬ SupportedType argType ∧ ∃ e, typeSize argType = .error e ∧
        (e = .indexOutOfRange ↔ argType = [])) := by
  cases argType with
  | nil => exact .inr ⟨nofun, .indexOutOfRange, rfl, by simp⟩
  | cons letter bits =>
    have hsized : ∀ names : List String, (∀ n ∈ names, n ∈ charBits) →
        String.ofList bits ∈ names → ∃ n, parseInt bits = some n := by
      intro names hsub hmem
      obtain ⟨n, hn, -⟩ := parseInt_bits (List.contains_iff_mem.mpr (hsub _ hmem))
      exact ⟨n, hn⟩
    unfold typeSize
    dsimp only
    by_cases hint : letter = 'u' ∨ letter = 's'
    · have hchar : letter ≠ 'c' := by rintro rfl; revert hint; decide
      rw [if_pos hint]
      by_cases hmem : String.ofList bits ∈ intBits
      · obtain ⟨n, hn⟩ := hsized intBits (by decide) hmem
        rw [if_pos (List.contains_iff_mem.mpr hmem), hn]
        exact .inl ⟨⟨letter, bits, rfl, .inl ⟨hint, hmem⟩⟩, n / 8, rfl⟩
      · rw [if_neg fun h => hmem (List.contains_iff_mem.mp h)]
        refine .inr ⟨?_, _, rfl, by simp⟩
        rintro ⟨letter', bits', heq, ⟨-, hmem'⟩ | ⟨hc, -⟩⟩
        · cases heq
          exact hmem hmem'
        · cases heq
          exact hchar hc
    · rw [if_neg hint]
      by_cases hchar : letter = 'c'
      · rw [if_pos hchar]
        by_cases hmem : String.ofList bits ∈ charBits
        · obtain ⟨n, hn⟩ := hsized charBits (fun _ h => h) hmem
          rw [if_pos (List.contains_iff_mem.mpr hmem), hn]
          exact .inl ⟨⟨letter, bits, rfl, .inr ⟨hchar, hmem⟩⟩, n / 8, rfl⟩
        · rw [if_neg fun h => hmem (List.contains_iff_mem.mp h)]
          refine .inr ⟨?_, _, rfl, by simp⟩
          rintro ⟨letter', bits', heq, ⟨hc, -⟩ | ⟨-, hmem'⟩⟩
          · cases heq
            exact hint hc
          · cases heq
            exact hmem hmem'
      · rw [if_neg hchar]
        refine .inr ⟨?_, _, rfl, by simp⟩
        rintro ⟨letter', bits', heq, ⟨hc, -⟩ | ⟨hc, -⟩⟩
        · cases heq
          exact hint hc
        · cases heq
          exact hchar hc

/-! ## Accepted statements -/

theorem newFetchOp_ok {piece : List Char} {op : ArgRule} (h : newFetchOp piece = .ok op) :
    RegisterText piece ∨ StepText piece := by
  rcases newFetchOp_cases piece with ⟨hreg, -⟩ | ⟨hstep, -⟩ | ⟨-, -, e, he, -⟩
  · exact .inl hreg
  · exact .inr hstep
  · rw [he] at h
    cases h

/-- What becomes of a statement: it is accepted, crashes for its empty type, or is an error. -/
theorem newFetchArg_cases (varname expr : String) :
    (Accepted expr ∧ ∃ a, newFetchArg varname expr = .ok a) ∨
      (¬ Accepted expr ∧ ∃ e, newFetchArg varname expr = .error e ∧
        (e = .indexOutOfRange ↔ EmptyType expr)) := by
  unfold newFetchArg
  split
  · rename_i argAddr argType hsplit
    have hempty : EmptyType expr ↔ argType = [] := by
      constructor
      · rintro ⟨addr, heq⟩
        rw [hsplit] at heq
        cases heq
        rfl
      · rintro rfl
        exact ⟨argAddr, hsplit⟩
    rw [scanOps_eq fun c hc => absurd hc List.not_mem_nil, List.nil_append]
    rcases typeSize_cases argType with ⟨htype, n, hn⟩ | ⟨htype, e, he, hcrash⟩
    · rw [hn]
      rcases Lib.mapM_cases newFetchOp (pieces argAddr) with ⟨⟨ops, hops⟩, hall⟩ |
        ⟨before, v, after, e, hpieces, -, hv, hmap⟩
      · rw [hops]
        refine .inl ⟨⟨argAddr, argType, hsplit, htype, fun piece hpiece => ?_⟩, _, rfl⟩
        obtain ⟨op, hop⟩ := hall piece hpiece
        exact newFetchOp_ok hop
      · rw [hmap]
        rcases newFetchOp_cases v with ⟨-, r, hr⟩ | ⟨-, -, off, d, hd⟩ |
          ⟨hreg, hstep, e', he', hindex⟩
        · rw [hr] at hv; cases hv
        · rw [hd] at hv; cases hv
        obtain rfl : e' = e := by
          rw [he'] at hv
          exact Except.error.inj hv
        refine .inr ⟨?_, e', rfl, ⟨fun h => absurd h hindex, fun h => ?_⟩⟩
        · rintro ⟨addr, type, heq, -, hall⟩
          rw [hsplit] at heq
          cases heq
          exact (hall v (by rw [hpieces]; simp)).elim hreg hstep
        · rw [hempty.mp h] at htype
          obtain ⟨letter, bits, heq, -⟩ := htype
          cases heq
    · rw [he]
      refine .inr ⟨?_, e, rfl, hcrash.trans hempty.symm⟩
      rintro ⟨addr, type, heq, hsupported, -⟩
      rw [hsplit] at heq
      cases heq
      exact htype hsupported
  · rename_i hsplit
    refine .inr ⟨?_, _, rfl, ⟨nofun, ?_⟩⟩
    · rintro ⟨addr, type, heq, -⟩
      exact absurd heq (hsplit addr type)
    · rintro ⟨addr, heq⟩
      exact absurd heq (hsplit addr [])

theorem accepted_of_ok {varname expr : String} {a : FetchArg}
    (h : newFetchArg varname expr = .ok a) : Accepted expr := by
  rcases newFetchArg_cases varname expr with ⟨hacc, -⟩ | ⟨-, e, he, -⟩
  · exact hacc
  · rw [he] at h
    cases h

/-! ## Named registers -/

/-- The chain starts at a register, and its later rules are memory steps. -/
def NamesRegister (rules : List ArgRule) : Prop :=
  ∃ r steps, rules = .register (some r) :: steps ∧ ∀ rule ∈ steps, ∃ off d, rule = .stack off d

theorem register_of_text {piece : List Char} {rule : ArgRule} (h : newFetchOp piece = .ok rule) :
    RegisterText piece ↔ ∃ r, rule = .register (some r) := by
  rcases newFetchOp_cases piece with ⟨hreg, r, hr⟩ | ⟨-, hreg, off, d, hd⟩ | ⟨-, -, e, he, -⟩
  · rw [hr] at h
    cases h
    exact ⟨fun _ => ⟨r, rfl⟩, fun _ => hreg⟩
  · rw [hd] at h
    cases h
    exact ⟨fun h => absurd h hreg, nofun⟩
  · rw [he] at h
    cases h

theorem step_of_text {piece : List Char} {rule : ArgRule} (h : newFetchOp piece = .ok rule) :
    StepText piece ↔ ∃ off d, rule = .stack off d := by
  rcases newFetchOp_cases piece with ⟨hreg, r, hr⟩ | ⟨hstep, -, off, d, hd⟩ | ⟨-, -, e, he, -⟩
  · rw [hr] at h
    cases h
    refine ⟨fun hstep => ?_, nofun⟩
    obtain ⟨name, r', rfl, -⟩ := hreg
    exact absurd hstep (not_step_percent name)
  · rw [hd] at h
    cases h
    exact ⟨fun _ => ⟨off, d, rfl⟩, fun _ => hstep⟩
  · rw [he] at h
    cases h

/-- Pieces and rules of one class go together. -/
theorem forall₂_class {ps : List (List Char)} {rules : List ArgRule}
    (h : List.Forall₂ (fun piece rule => newFetchOp piece = .ok rule) ps rules) :
    (∀ p ∈ ps, StepText p) ↔ ∀ rule ∈ rules, ∃ off d, rule = .stack off d := by
  induction h with
  | nil => exact ⟨nofun, nofun⟩
  | cons hop _ ih => rw [List.forall_mem_cons, List.forall_mem_cons, step_of_text hop, ih]

/-- An accepted chain starts at a register when its innermost piece is one. -/
theorem namesRegister_iff {varname expr : String} {a : FetchArg}
    (h : newFetchArg varname expr = .ok a) : NamesRegister a.rules ↔ RegisterInnermost expr := by
  obtain ⟨argAddr, argType, hsplit, -, hrules, -, -⟩ := newFetchArg_ok h
  constructor
  · rintro ⟨r, steps, hsteps, hall⟩ addr type heq
    rw [hsplit] at heq
    cases heq
    rw [hsteps] at hrules
    obtain ⟨reg, ps, hreg, hps, hpieces⟩ := List.forall₂_cons_right_iff.mp hrules
    refine ⟨ps.reverse, reg, ?_, (register_of_text hreg).mpr ⟨r, rfl⟩, fun p hp => ?_⟩
    · rw [← List.reverse_cons, ← hpieces, List.reverse_reverse]
    · exact (forall₂_class hps).mpr hall p (List.mem_reverse.mp hp)
  · intro hinner
    obtain ⟨steps, reg, hpieces, hreg, hall⟩ := hinner argAddr argType hsplit
    rw [hpieces, List.reverse_append, List.reverse_singleton, List.singleton_append] at hrules
    obtain ⟨rule, rules, hrule, hrest, heq⟩ := List.forall₂_cons_left_iff.mp hrules
    obtain ⟨r, rfl⟩ := (register_of_text hrule).mp hreg
    refine ⟨r, rules, heq, (forall₂_class hrest).mp fun p hp => hall p (List.mem_reverse.mp hp)⟩

end GoFtrace.Uprobe
