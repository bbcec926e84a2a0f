import GoFtrace.Elf.Symtab

/-!
# What a lookup returns

`ResolveAddress` on a table sorted by value returns the symbols at the greatest value that
is not above the address, the last one first.

* `sortSearch_spec`: the search for the point where a predicate turns true.
* `resolveAddress_eq`: the result of a lookup.
-/

namespace GoFtrace.Elf

/-! ## The search -/

section
variable {f : Nat → Bool} {n : Nat}

/-- The search keeps false indices below and true ones above. -/
theorem searchLoop_spec (hmono : ∀ i j, i ≤ j → j < n → f i = true → f j = true) :
    ∀ (fuel i j : Nat), i ≤ j → j ≤ n → j - i ≤ fuel → (∀ k < i, f k = false) →
      (∀ k, j ≤ k → k < n → f k = true) →
      (∀ k < searchLoop f fuel i j, f k = false) ∧
        ∀ k, searchLoop f fuel i j ≤ k → k < n → f k = true
  | 0, i, j, hij, _, hfuel, hbelow, habove => by
    have heq : i = j := by omega
    subst heq
    exact ⟨hbelow, habove⟩
  | fuel + 1, i, j, hij, hj, hfuel, hbelow, habove => by
    rw [searchLoop]
    split
    · dsimp only
      cases hmid : f ((i + j) / 2) with
      | true =>
        rw [if_pos rfl]
        exact searchLoop_spec hmono fuel i ((i + j) / 2) (by omega) (by omega) (by omega) hbelow
          fun k hk hkn => hmono _ k hk hkn hmid
      | false =>
        rw [if_neg Bool.false_ne_true]
        refine searchLoop_spec hmono fuel ((i + j) / 2 + 1) j (by omega) hj (by omega)
          (fun k hk => ?_) habove
        by_contra hne
        have htrue : f k = true := by simpa using hne
        rw [hmono k ((i + j) / 2) (by omega) (by omega) htrue] at hmid
        cases hmid
    · have heq : i = j := by omega
      subst heq
      exact ⟨hbelow, habove⟩

theorem searchLoop_le (f : Nat → Bool) :
    ∀ fuel i j : Nat, i ≤ j → searchLoop f fuel i j ≤ j
  | 0, _, _, hij => hij
  | fuel + 1, i, j, hij => by
    rw [searchLoop]
    split
    · dsimp only
      split
      · exact (searchLoop_le f fuel i _ (by omega)).trans (by omega)
      · exact searchLoop_le f fuel _ j (by omega)
    · exact hij

theorem sortSearch_spec (hmono : ∀ i j, i ≤ j → j < n → f i = true → f j = true) :
    (∀ k < sortSearch n f, f k = false) ∧ ∀ k, sortSearch n f ≤ k → k < n → f k = true :=
  searchLoop_spec hmono n 0 n (Nat.zero_le n) (Nat.le_refl n) (by omega)
    (fun _ hk => absurd hk (Nat.not_lt_zero _)) fun _ hk hkn => absurd hkn (Nat.not_lt.mpr hk)

end

/-! ## Sorted tables -/

/-- The table is sorted by value. -/
def Sorted (symbols : List Symbol) : Prop := symbols.Pairwise fun a b => a.value ≤ b.value

theorem take_eq_filter {α : Type} {l : List α} {p : α → Bool} {n : Nat}
    (hbelow : ∀ a ∈ l.take n, p a = true) (habove : ∀ a ∈ l.drop n, p a = false) :
    l.take n = l.filter p ∧ l.drop n = l.filter fun a => !p a := by
  have hsplit : l.filter p = (l.take n).filter p ++ (l.drop n).filter p := by
    rw [← List.filter_append, List.take_append_drop]
  have hsplit' : (l.filter fun a => !p a) =
      (l.take n).filter (fun a => !p a) ++ (l.drop n).filter fun a => !p a := by
    rw [← List.filter_append, List.take_append_drop]
  constructor
  · rw [hsplit, List.filter_eq_self.mpr hbelow,
      List.filter_eq_nil_iff.mpr fun a ha => by simp [habove a ha], List.append_nil]
  · rw [hsplit', List.filter_eq_nil_iff.mpr fun a ha => by simp [hbelow a ha],
      List.filter_eq_self.mpr fun a ha => by simp [habove a ha], List.nil_append]

/-- A predicate that never comes back is taken as a whole. -/
theorem takeWhile_eq_filter {α : Type} {l : List α} {p : α → Bool}
    (h : l.Pairwise fun a b => p b = true → p a = true) : l.takeWhile p = l.filter p := by
  induction l with
  | nil => rfl
  | cons a l ih =>
    obtain ⟨hall, hl⟩ := List.pairwise_cons.mp h
    cases ha : p a with
    | true => rw [List.takeWhile_cons_of_pos ha, List.filter_cons_of_pos ha, ih hl]
    | false =>
      have hnil : l.filter p = [] := List.filter_eq_nil_iff.mpr fun b hb htrue => by
        rw [hall b hb htrue] at ha
        cases ha
      rw [List.takeWhile_cons_of_neg (by simp [ha]), List.filter_cons_of_neg (by simp [ha]), hnil]

/-- The symbols that are not above an address. -/
def atOrBelow (symbols : List Symbol) (addr : UInt64) : List Symbol :=
  symbols.filter fun s => decide (s.value ≤ addr)

/-- The symbols at an address. -/
def symbolsAt (symbols : List Symbol) (addr : UInt64) : List Symbol :=
  symbols.filter fun s => s.value == addr

/-- The predicate that `resolveAddress` searches with. -/
def isAbove (symbols : List Symbol) (addr : UInt64) (i : Nat) : Bool :=
  match symbols[i]? with
  | some s => decide (addr < s.value)
  | none => false

theorem isAbove_getElem {symbols : List Symbol} {addr : UInt64} {i : Nat}
    (h : i < symbols.length) : isAbove symbols addr i = decide (addr < symbols[i].value) := by
  rw [isAbove, List.getElem?_eq_getElem h]

/-- The search splits the table. -/
theorem search_split {symbols : List Symbol} (hsorted : Sorted symbols) (addr : UInt64) :
    symbols.take (sortSearch symbols.length (isAbove symbols addr)) = atOrBelow symbols addr ∧
      ∀ s ∈ symbols.drop (sortSearch symbols.length (isAbove symbols addr)), addr < s.value := by
  have hmono : ∀ i j, i ≤ j → j < symbols.length → isAbove symbols addr i = true →
      isAbove symbols addr j = true := by
    intro i j hij hj hi
    rcases Nat.lt_or_eq_of_le hij with hlt | rfl
    · rw [isAbove_getElem (by omega), decide_eq_true_eq] at hi
      rw [isAbove_getElem hj, decide_eq_true_eq]
      exact UInt64.lt_of_lt_of_le hi
        (List.pairwise_iff_getElem.mp hsorted i j (by omega) hj hlt)
    · exact hi
  obtain ⟨hbelow, habove⟩ := sortSearch_spec hmono
  generalize sortSearch symbols.length (isAbove symbols addr) = idx at hbelow habove ⊢
  have htake : ∀ s ∈ symbols.take idx, decide (s.value ≤ addr) = true := by
    intro s hs
    obtain ⟨i, hi, rfl⟩ := List.mem_take_iff_getElem.mp hs
    have hno := hbelow i (by omega)
    rw [isAbove_getElem (by omega)] at hno
    simpa using hno
  have hdrop : ∀ s ∈ symbols.drop idx, addr < s.value := by
    intro s hs
    obtain ⟨i, hi, rfl⟩ := List.mem_drop_iff_getElem.mp hs
    have hyes := habove (idx + i) (Nat.le_add_right _ _) (by omega)
    rw [isAbove_getElem (by omega)] at hyes
    simpa using hyes
  refine ⟨(take_eq_filter htake fun s hs => ?_).1, hdrop⟩
  simpa using hdrop s hs

/-- The last symbol that is not above an address has the greatest value of these. -/
theorem last_atOrBelow {symbols : List Symbol} (hsorted : Sorted symbols) {addr : UInt64}
    {sym : Symbol} (h : (atOrBelow symbols addr).getLast? = some sym) :
    sym ∈ symbols ∧ sym.value ≤ addr ∧
      ∀ s ∈ symbols, s.value ≤ addr → s.value ≤ sym.value := by
  obtain ⟨hmem, hle⟩ := List.mem_filter.mp (List.mem_of_getLast? h)
  refine ⟨hmem, of_decide_eq_true hle, fun s hs hsle => ?_⟩
  obtain ⟨below, hbelow⟩ := List.getLast?_eq_some_iff.mp h
  have hsorted' : (atOrBelow symbols addr).Pairwise fun a b => a.value ≤ b.value :=
    hsorted.sublist List.filter_sublist
  have hs' : s ∈ atOrBelow symbols addr := List.mem_filter.mpr ⟨hs, decide_eq_true hsle⟩
  rw [hbelow] at hsorted' hs'
  rcases List.mem_append.mp hs' with hs' | hs'
  · exact (List.pairwise_append.mp hsorted').2.2 s hs' sym List.mem_cons_self
  · rw [List.mem_singleton.mp hs']
    exact UInt64.le_refl _

/-- The result of a lookup. -/
theorem resolveAddress_eq {symbols : List Symbol} (hsorted : Sorted symbols) {addr : UInt64}
    (haddr : addr ≠ 0) :
    resolveAddress symbols addr =
      (atOrBelow symbols addr).getLast?.map fun sym =>
        ((symbolsAt symbols sym.value).reverse, addr - sym.value) := by
  obtain ⟨htake, hdrop⟩ := search_split hsorted addr
  generalize hidx : sortSearch symbols.length (isAbove symbols addr) = idx at htake hdrop
  have hsearch : ∀ f (_ : f = isAbove symbols addr), sortSearch symbols.length f = idx :=
    fun f hf => hf ▸ hidx
  unfold resolveAddress
  rw [if_neg haddr]
  dsimp only
  rw [hsearch, htake]
  rotate_left
  · rfl
  cases hl : (atOrBelow symbols addr).reverse with
  | nil =>
    rw [List.reverse_eq_nil_iff.mp hl]
    rfl
  | cons sym below =>
    have hlast : (atOrBelow symbols addr).getLast? = some sym := by
      rw [List.getLast?_eq_head?_reverse, hl]
      rfl
    rw [hlast, Option.map_some]
    dsimp only
    have hmem : sym ∈ atOrBelow symbols addr := List.mem_of_getLast? hlast
    have hle : sym.value ≤ addr := by simpa [atOrBelow] using (List.mem_filter.mp hmem).2
    -- nothing behind the point found has the value of the symbol
    have hnone : (symbols.drop idx).takeWhile (fun s => s.value == sym.value) = [] := by
      cases hd : symbols.drop idx with
      | nil => rfl
      | cons s rest =>
        refine List.takeWhile_cons_of_neg fun heq => ?_
        have hlt := hdrop s (by rw [hd]; exact List.mem_cons_self)
        rw [beq_iff_eq.mp heq] at hlt
        exact absurd hle (UInt64.not_le.mpr hlt)
    rw [hnone, List.append_nil]
    have hdesc : (sym :: below).Pairwise fun a b => b.value ≤ a.value := by
      rw [← hl, List.pairwise_reverse]
      exact hsorted.sublist List.filter_sublist
    have htop : ∀ s ∈ sym :: below, s.value ≤ sym.value := by
      intro s hs
      rcases List.mem_cons.mp hs with rfl | hs
      · exact UInt64.le_refl _
      · exact (List.pairwise_cons.mp hdesc).1 s hs
    have hrun : sym :: below.takeWhile (fun s => s.value == sym.value) =
        (sym :: below).filter fun s => s.value == sym.value := by
      rw [← takeWhile_eq_filter, List.takeWhile_cons_of_pos (by simp)]
      refine hdesc.imp_of_mem fun {a b} ha _ hba hb => ?_
      rw [beq_iff_eq.mp hb] at hba
      exact beq_iff_eq.mpr (UInt64.le_antisymm (htop a ha) hba)
    rw [hrun, ← hl, List.filter_reverse, atOrBelow, List.filter_filter, symbolsAt]
    congr 3
    refine List.filter_congr fun s _ => ?_
    by_cases hs : s.value = sym.value
    · simp [hs, hle]
    · simp [hs]

end GoFtrace.Elf
