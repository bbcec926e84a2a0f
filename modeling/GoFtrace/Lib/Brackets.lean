import Mathlib.Data.List.Basic
import Mathlib.Data.List.Perm.Basic

/-!
# Bracket sequences

A list of elements that open a bracket of some kind, close one, or do neither. `replay`
runs the list against a stack of open brackets. A list that leaves the empty stack empty is
a forest of nested brackets, and the pairs of the forest are the brackets matched.

* `exists_forest_of_replay`: a list that replays is a forest.
* `pairs_perm`: every bracket of a forest is opened by one of its pairs.
* `Forest.Matched.map`: matched brackets stay matched if their kinds are replaced alike.
* `Forest.flatten_injective`: a list has one forest at most.
* `Forest.layout_matched`: a forest laid out by depth is matched by depth.
-/

namespace GoFtrace.Lib

variable {α κ : Type}

/-! ## Replaying -/

/-- What an element does to the open brackets. -/
inductive Token (κ : Type) where
  | opens (k : κ)
  | closes (k : κ)
  | skip
  deriving DecidableEq

/-- Whether an element opens a bracket. -/
def Token.isOpening : Token κ → Bool
  | .opens _ => true
  | _ => false

/-- The stack after an element; a closing element must match the top. -/
def Token.apply [DecidableEq κ] (s : List κ) : Token κ → Option (List κ)
  | .opens k => some (k :: s)
  | .closes k =>
    match s with
    | [] => none
    | top :: s => if top = k then some s else none
  | .skip => some s

/-- The stack after a list of elements. -/
def replay [DecidableEq κ] (tok : α → Token κ) : List α → List κ → Option (List κ)
  | [], s => some s
  | e :: es, s => ((tok e).apply s).bind (replay tok es)

section

variable [DecidableEq κ]

@[simp] theorem replay_nil (tok : α → Token κ) (s : List κ) : replay tok [] s = some s := rfl

theorem replay_cons (tok : α → Token κ) (e : α) (es : List α) (s : List κ) :
    replay tok (e :: es) s = ((tok e).apply s).bind (replay tok es) := rfl

theorem replay_append (tok : α → Token κ) (xs ys : List α) (s : List κ) :
    replay tok (xs ++ ys) s = (replay tok xs s).bind (replay tok ys) := by
  induction xs generalizing s with
  | nil => rfl
  | cons x xs ih =>
    rw [List.cons_append, replay_cons, replay_cons]
    cases (tok x).apply s with
    | none => rfl
    | some s' => exact ih s'

theorem replay_concat {tok : α → Token κ} {xs : List α} {s s' : List κ}
    (h : replay tok xs s = some s') (x : α) :
    replay tok (xs ++ [x]) s = (tok x).apply s' := by
  rw [replay_append, h, Option.bind_some, replay_cons]
  cases (tok x).apply s' <;> rfl

theorem apply_opens (k : κ) (s : List κ) : (Token.opens k).apply s = some (k :: s) := rfl

theorem apply_skip (s : List κ) : (Token.skip : Token κ).apply s = some s := rfl

theorem apply_closes_cons (k : κ) (s : List κ) : (Token.closes k).apply (k :: s) = some s := by
  simp [Token.apply]

theorem apply_closes_eq_some {k : κ} {s s' : List κ}
    (h : (Token.closes k).apply s = some s') : s = k :: s' := by
  cases s with
  | nil => cases h
  | cons top s =>
    simp only [Token.apply, Option.ite_none_right_eq_some] at h
    obtain ⟨rfl, hs⟩ := h
    rw [Option.some.inj hs]

/-- Only the tokens of a list matter. -/
theorem replay_congr {tok : α → Token κ} {xs ys : List α} (h : xs.map tok = ys.map tok)
    (s : List κ) : replay tok xs s = replay tok ys s := by
  induction xs generalizing ys s with
  | nil =>
    obtain rfl := List.map_eq_nil_iff.mp h.symm
    rfl
  | cons x xs ih =>
    obtain ⟨y, ys, rfl, hxy, htail⟩ := List.map_eq_cons_iff.mp h.symm
    rw [replay_cons, replay_cons, hxy]
    congr 1
    funext s'
    exact ih htail.symm s'

/-- Elements that do nothing may be left out. -/
theorem replay_filter (tok : α → Token κ) (es : List α) (s : List κ) :
    replay tok (es.filter fun e => tok e ≠ .skip) s = replay tok es s := by
  induction es generalizing s with
  | nil => rfl
  | cons e es ih =>
    by_cases he : tok e = .skip
    · rw [List.filter_cons_of_neg (by simpa using he), ih, replay_cons, he, apply_skip,
        Option.bind_some]
    · rw [List.filter_cons_of_pos (by simpa using he), replay_cons, replay_cons]
      congr 1
      funext s'
      exact ih s'

end

/-! ## Forests -/

/-- Nested brackets: an opening element, what is inside, the closing element, and the rest. -/
inductive Forest (α : Type) where
  | nil
  | node (o : α) (kids : Forest α) (c : α) (rest : Forest α)

namespace Forest

/-- The elements in order. -/
def flatten : Forest α → List α
  | nil => []
  | node o kids c rest => o :: (kids.flatten ++ c :: rest.flatten)

/-- The matched pairs, in the order of their closing elements. -/
def pairs : Forest α → List (α × α)
  | nil => []
  | node o kids c rest => kids.pairs ++ (o, c) :: rest.pairs

/-- Every pair opens and closes one kind of bracket. -/
def Matched (tok : α → Token κ) : Forest α → Prop
  | nil => True
  | node o kids c rest =>
    (∃ k, tok o = .opens k ∧ tok c = .closes k) ∧ kids.Matched tok ∧ rest.Matched tok

/-- The pairs of a forest are its elements: each opening element is the first of one pair. -/
theorem pairs_perm {tok : α → Token κ} {f : Forest α} (h : f.Matched tok) :
    (f.pairs.map Prod.fst).Perm (f.flatten.filter fun e => (tok e).isOpening) := by
  induction f with
  | nil => exact .refl _
  | node o kids c rest ihk ihr =>
    obtain ⟨⟨k, ho, hc⟩, hkids, hrest⟩ := h
    have hopen : (tok o).isOpening = true := by rw [ho]; rfl
    have hclose : (tok c).isOpening = false := by rw [hc]; rfl
    have hfilter : (node o kids c rest).flatten.filter (fun e => (tok e).isOpening) =
        o :: (kids.flatten.filter (fun e => (tok e).isOpening) ++
          rest.flatten.filter fun e => (tok e).isOpening) := by
      simp [flatten, hopen, hclose]
    rw [hfilter, pairs, List.map_append, List.map_cons]
    exact List.perm_middle.trans (((ihk hkids).append (ihr hrest)).cons o)

end Forest

/-- A pair of a matched forest opens and closes one kind of bracket. -/
theorem Forest.Matched.of_mem_pairs {tok : α → Token κ} {f : Forest α} (h : f.Matched tok)
    {p : α × α} (hp : p ∈ f.pairs) : ∃ k, tok p.1 = .opens k ∧ tok p.2 = .closes k := by
  induction f with
  | nil => cases hp
  | node o kids c rest ihk ihr =>
    obtain ⟨hpair, hkids, hrest⟩ := h
    rcases List.mem_append.mp hp with hp | hp
    · exact ihk hkids hp
    · rcases List.mem_cons.mp hp with rfl | hp
      · exact hpair
      · exact ihr hrest hp

/-! ## Other elements -/

section

variable {β ι : Type}

/-- A token with its kind of bracket replaced. -/
def Token.map (r : κ → ι) : Token κ → Token ι
  | .opens k => .opens (r k)
  | .closes k => .closes (r k)
  | .skip => .skip

/-- A forest with its elements replaced. -/
def Forest.map (g : α → β) : Forest α → Forest β
  | nil => nil
  | node o kids c rest => node (g o) (kids.map g) (g c) (rest.map g)

theorem Forest.flatten_map (g : α → β) (f : Forest α) : (f.map g).flatten = f.flatten.map g := by
  induction f with
  | nil => rfl
  | node o kids c rest ihk ihr => simp [Forest.map, flatten, ihk, ihr]

theorem Forest.map_id (f : Forest α) : f.map id = f := by
  induction f with
  | nil => rfl
  | node o kids c rest ihk ihr => simp [Forest.map, ihk, ihr]

theorem Forest.pairs_map (g : α → β) (f : Forest α) :
    (f.map g).pairs = f.pairs.map (Prod.map g g) := by
  induction f with
  | nil => rfl
  | node o kids c rest ihk ihr => simp [Forest.map, pairs, ihk, ihr]

/-- Brackets that match stay matched if the kinds are replaced alike. -/
theorem Forest.Matched.map {tok : α → Token κ} {tok' : β → Token ι} {g : α → β} {r : κ → ι}
    {f : Forest α} (h : f.Matched tok) (hg : ∀ x ∈ f.flatten, tok' (g x) = (tok x).map r) :
    (f.map g).Matched tok' := by
  induction f with
  | nil => trivial
  | node o kids c rest ihk ihr =>
    obtain ⟨⟨k, ho, hc⟩, hkids, hrest⟩ := h
    refine ⟨⟨r k, ?_, ?_⟩, ihk hkids fun x hx => hg x ?_, ihr hrest fun x hx => hg x ?_⟩
    · rw [hg o (by simp [flatten]), ho]
      rfl
    · rw [hg c (by simp [flatten]), hc]
      rfl
    · simp [flatten, hx]
    · simp [flatten, hx]

/-- Brackets match if they match with finer kinds. -/
theorem Forest.Matched.coarsen {tok : α → Token κ} {tok' : α → Token ι} {r : κ → ι}
    {f : Forest α} (h : f.Matched tok) (htok : ∀ x, tok' x = (tok x).map r) :
    f.Matched tok' := by
  rw [← f.map_id]
  exact h.map fun x _ => htok x

theorem replay_map [DecidableEq κ] (tok : β → Token κ) (g : α → β) (es : List α) (s : List κ) :
    replay tok (es.map g) s = replay (fun e => tok (g e)) es s := by
  induction es generalizing s with
  | nil => rfl
  | cons e es ih =>
    rw [List.map_cons, replay_cons, replay_cons]
    congr 1
    funext s'
    exact ih s'

end

/-! ## Parsing -/

/-- A list that closes the open brackets `s`: a forest before each closing element and one
after the last. -/
inductive Closing (tok : α → Token κ) : List κ → List α → Prop
  | done {f : Forest α} (hf : f.Matched tok) : Closing tok [] f.flatten
  | close {f : Forest α} {c : α} {k : κ} {s : List κ} {es : List α} (hf : f.Matched tok)
      (hc : tok c = .closes k) (hes : Closing tok s es) :
      Closing tok (k :: s) (f.flatten ++ c :: es)

/-- A pair in front of the rest is part of the first forest. -/
theorem Closing.node {tok : α → Token κ} {o c : α} {kids : Forest α} {k : κ} {s : List κ}
    {es : List α} (ho : tok o = .opens k) (hkids : kids.Matched tok) (hc : tok c = .closes k)
    (hes : Closing tok s es) : Closing tok s (o :: (kids.flatten ++ c :: es)) := by
  cases hes with
  | @done f hf =>
    have hnode : (Forest.node o kids c f).Matched tok := ⟨⟨k, ho, hc⟩, hkids, hf⟩
    exact Closing.done hnode
  | @close f c' k' s es hf hc' hes =>
    have hnode : (Forest.node o kids c f).Matched tok := ⟨⟨k, ho, hc⟩, hkids, hf⟩
    have hclose := Closing.close hnode hc' hes
    simpa [Forest.flatten] using hclose

theorem closing_of_replay [DecidableEq κ] {tok : α → Token κ} {es : List α} {s : List κ}
    (hskip : ∀ e ∈ es, tok e ≠ .skip) (h : replay tok es s = some []) : Closing tok s es := by
  induction es generalizing s with
  | nil =>
    cases h
    exact Closing.done (f := Forest.nil) trivial
  | cons e es ih =>
    have hrest : ∀ e ∈ es, tok e ≠ .skip := fun e he => hskip e (List.mem_cons_of_mem _ he)
    rw [replay_cons] at h
    obtain ⟨s', happ, hreplay⟩ := Option.bind_eq_some_iff.mp h
    have hclosing := ih hrest hreplay
    cases he : tok e with
    | skip => exact absurd he (hskip e List.mem_cons_self)
    | opens k =>
      rw [he, apply_opens] at happ
      cases happ
      cases hclosing with
      | close hf hc hes => exact Closing.node he hf hc hes
    | closes k =>
      rw [he] at happ
      rw [apply_closes_eq_some happ]
      exact Closing.close (f := Forest.nil) trivial he hclosing

/-- A list that leaves the empty stack empty is a matched forest. -/
theorem exists_forest_of_replay [DecidableEq κ] {tok : α → Token κ} {es : List α}
    (h : replay tok es [] = some []) :
    ∃ f : Forest α, f.Matched tok ∧ f.flatten = es.filter (fun e => tok e ≠ .skip) := by
  have hskip : ∀ e ∈ es.filter fun e => tok e ≠ .skip, tok e ≠ .skip := by
    intro e he
    simpa using List.of_mem_filter he
  have hclosing := closing_of_replay hskip ((replay_filter tok es []).trans h)
  generalize es.filter (fun e => tok e ≠ .skip) = es' at hclosing
  cases hclosing with
  | done hf => exact ⟨_, hf, rfl⟩

/-! ## Reading back -/

section

variable {tok : α → Token κ}

/-- Only closing elements and the end come behind a forest. -/
theorem Forest.flatten_append_injective {f g : Forest α} (hf : f.Matched tok)
    (hg : g.Matched tok) {c d : α} {k l : κ} {xs ys : List α} (hc : tok c = .closes k)
    (hd : tok d = .closes l) (h : f.flatten ++ c :: xs = g.flatten ++ d :: ys) :
    f = g ∧ c = d ∧ xs = ys := by
  induction f generalizing g c d k l xs ys with
  | nil =>
    cases g with
    | nil =>
      obtain ⟨hcd, hxs⟩ := List.cons.inj h
      exact ⟨rfl, hcd, hxs⟩
    | node o kids c' rest =>
      obtain ⟨⟨k', ho, -⟩, -, -⟩ := hg
      rw [(List.cons.inj h).1, ho] at hc
      cases hc
  | node o kids c' rest ihk ihr =>
    obtain ⟨⟨k', ho, hc'⟩, hkids, hrest⟩ := hf
    cases g with
    | nil =>
      rw [← (List.cons.inj h).1, ho] at hd
      cases hd
    | node o' kids' d' rest' =>
      obtain ⟨⟨l', -, hd'⟩, hkids', hrest'⟩ := hg
      simp only [flatten, List.cons_append, List.append_assoc] at h
      obtain ⟨ho', htail⟩ := List.cons.inj h
      obtain ⟨rfl, rfl, hmore⟩ := ihk hkids hkids' hc' hd' htail
      obtain ⟨rfl, hcd, hxs⟩ := ihr hrest hrest' hc hd hmore
      exact ⟨by rw [ho'], hcd, hxs⟩

/-- A list has one forest at most. -/
theorem Forest.flatten_injective {f g : Forest α} (hf : f.Matched tok) (hg : g.Matched tok)
    (h : f.flatten = g.flatten) : f = g := by
  induction f generalizing g with
  | nil =>
    cases g with
    | nil => rfl
    | node o kids c rest => cases h
  | node o kids c rest ihk ihr =>
    cases g with
    | nil => cases h
    | node o' kids' c' rest' =>
      obtain ⟨⟨k, -, hc⟩, hkids, hrest⟩ := hf
      obtain ⟨⟨k', -, hc'⟩, hkids', hrest'⟩ := hg
      obtain ⟨ho, htail⟩ := List.cons.inj h
      obtain ⟨rfl, rfl, hmore⟩ := flatten_append_injective hkids hkids' hc hc' htail
      rw [ho, ihr hrest hrest' hmore]

end

/-! ## Layout -/

section

variable {β : Type}

/-- Each element with its depth, a closing one also with the element that it closes. -/
def Forest.layout (opening : Nat → α → β) (closing : Nat → α → α → β) : Nat → Forest α → Forest β
  | _, nil => nil
  | d, node o kids c rest =>
    node (opening d o) (kids.layout opening closing (d + 1)) (closing d o c)
      (rest.layout opening closing d)

/-- A forest laid out by depth is matched by depth. -/
theorem Forest.layout_matched {opening : Nat → α → β} {closing : Nat → α → α → β}
    {tok : β → Token κ} {kind : Nat → κ} (ho : ∀ d o, tok (opening d o) = .opens (kind d))
    (hc : ∀ d o c, tok (closing d o c) = .closes (kind d)) (d : Nat) (f : Forest α) :
    (f.layout opening closing d).Matched tok := by
  induction f generalizing d with
  | nil => trivial
  | node o kids c rest ihk ihr => exact ⟨⟨kind d, ho d o, hc d o c⟩, ihk (d + 1), ihr d⟩

end

end GoFtrace.Lib
