import GoFtrace.Lib.Paths
import GoFtrace.Uprobe.Slots
import Mathlib.Data.List.Nodup
import Mathlib.Data.List.Pairwise

/-!
# Marked interfaces

`markIfaceSlots` finds the two words of an interface by their names. Names without dots, distinct
among the variables and in each struct, lead it to the right ones.

* `slots_apart`: a slot that is named like a part of an interface belongs to it.
* `derive_marks`: exactly the data words of interfaces with a type slot are marked.
-/

namespace GoFtrace.Uprobe

open Lib

/-! ## Names that do not collide -/

/-- A name that is not confused with a part. -/
def PlainName (name : String) : Prop := '.' ∉ name.toList ∧ name ≠ "type"

mutual

/-- The fields of each struct have distinct plain names. -/
def DType.WellNamed : DType → Prop
  | .typedef _ t => t.WellNamed
  | .qual _ t => t.WellNamed
  | .ptr _ _ t => t.WellNamed
  | .struct _ _ _ fs => fs.names.Nodup ∧ fs.WellNamed
  | _ => True

def Fields.WellNamed : Fields → Prop
  | .nil => True
  | .cons n _ t rest => PlainName n ∧ t.WellNamed ∧ rest.WellNamed

end

/-- The variables have distinct plain names, and well named types. -/
structure WellNamed (rename : String → String) (vars : List Variable) : Prop where
  distinct : (vars.map fun v => rename v.name).Nodup
  plain : ∀ v ∈ vars, PlainName (rename v.name)
  types : ∀ v ∈ vars, v.type.WellNamed

def Node.names (n : Node) : List String := n.place.names

theorem Place.below_self (p : Place) : ∃ q : Place, p = p ++ q ∧ ∀ x ∈ q.names, PlainName x :=
  ⟨[], (List.append_nil p).symm, List.forall_mem_nil _⟩

section
variable {p : Place}

mutual

/-- The nodes of a type are below its place, in plain names. -/
theorem DType.nodes_below : ∀ (t : DType) (p : Place), t.WellNamed → ∀ n ∈ t.nodes p,
    ∃ q : Place, n.place = p ++ q ∧ ∀ x ∈ q.names, PlainName x
  | .typedef _ t, p, h => DType.nodes_below t p h
  | .qual _ t, p, h => DType.nodes_below t p h
  | .struct _ s _ fs, p, h => by
    rw [DType.nodes]
    cases structKind s fs with
    | plain =>
      intro n hn
      obtain ⟨x, q, hplace, -, hplain⟩ := Fields.nodes_below fs p 0 h.2 n hn
      exact ⟨x :: q, hplace, hplain⟩
    | _ => exact List.forall_mem_singleton.mpr p.below_self
  | .ptr _ _ _, p, _ => List.forall_mem_singleton.mpr p.below_self
  | .basic _ _ _, p, _ => List.forall_mem_singleton.mpr p.below_self
  | .func _ _ _, p, _ => List.forall_mem_singleton.mpr p.below_self
  | .other _ _ _, p, _ => List.forall_mem_singleton.mpr p.below_self

theorem Fields.nodes_below : ∀ (fs : Fields) (p : Place) (k : Nat), fs.WellNamed →
    ∀ n ∈ fs.nodes p k, ∃ (x : Nat × String) (q : Place), n.place = p ++ x :: q ∧
      x.2 ∈ fs.names ∧ ∀ y ∈ Place.names (x :: q), PlainName y
  | .nil, _, _, _ => List.forall_mem_nil _
  | .cons n _ t rest, p, k, h => by
    rw [Fields.nodes]
    refine List.forall_mem_append.mpr ⟨fun m hm => ?_, fun m hm => ?_⟩
    · obtain ⟨q, hplace, hplain⟩ := DType.nodes_below t (p ++ [(k, n)]) h.2.1 m hm
      refine ⟨(k, n), q, ?_, List.mem_cons_self, List.forall_mem_cons.mpr ⟨h.1, hplain⟩⟩
      rw [hplace, List.append_assoc]
      rfl
    · obtain ⟨x, q, hplace, hmem, hplain⟩ := Fields.nodes_below rest p (k + 1) h.2.2 m hm
      exact ⟨x, q, hplace, List.mem_cons_of_mem _ hmem, hplain⟩

end

/-- A node below a place, by names. -/
theorem Node.names_of_place {n : Node} {x : Nat × String} {q : Place}
    (h : n.place = p ++ x :: q) : p.names ++ [x.2] <+: n.names := by
  refine ⟨q.names, ?_⟩
  rw [Node.names, h, Place.names, Place.names, Place.names, List.map_append, List.map_cons,
    List.append_assoc]
  rfl

mutual

/-- No node lies at or below another one. -/
theorem DType.nodes_apart : ∀ (t : DType) (p : Place), t.WellNamed →
    (t.nodes p).Pairwise fun a b => Apart a.names b.names
  | .typedef _ t, p, h => DType.nodes_apart t p h
  | .qual _ t, p, h => DType.nodes_apart t p h
  | .struct _ s _ fs, p, h => by
    rw [DType.nodes]
    cases structKind s fs with
    | plain => exact Fields.nodes_apart fs p 0 h.1 h.2
    | _ => exact List.pairwise_singleton _ _
  | .ptr _ _ _, _, _ => List.pairwise_singleton _ _
  | .basic _ _ _, _, _ => List.pairwise_singleton _ _
  | .func _ _ _, _, _ => List.pairwise_singleton _ _
  | .other _ _ _, _, _ => List.pairwise_singleton _ _

theorem Fields.nodes_apart : ∀ (fs : Fields) (p : Place) (k : Nat), fs.names.Nodup →
    fs.WellNamed → (fs.nodes p k).Pairwise fun a b => Apart a.names b.names
  | .nil, _, _, _, _ => List.Pairwise.nil
  | .cons n _ t rest, p, k, hnodup, h => by
    obtain ⟨hfresh, hrest⟩ := List.nodup_cons.mp hnodup
    rw [Fields.nodes]
    refine List.pairwise_append.mpr ⟨DType.nodes_apart t _ h.2.1,
      Fields.nodes_apart rest p (k + 1) hrest h.2.2, fun a ha b hb => ?_⟩
    -- The two nodes are below different fields of one struct.
    obtain ⟨q, hfirst, -⟩ := DType.nodes_below t (p ++ [(k, n)]) h.2.1 a ha
    obtain ⟨x, r, hother, hmem, -⟩ := Fields.nodes_below rest p (k + 1) h.2.2 b hb
    rw [List.append_assoc] at hfirst
    refine Apart.of_ne (Node.names_of_place hfirst) (Node.names_of_place hother) ?_
    intro (heq : n = x.2)
    rw [heq] at hfresh
    exact hfresh hmem

end

end

theorem Node.eq_of_not_apart {nodes : List Node}
    (h : nodes.Pairwise fun a b => Apart a.names b.names) {m n : Node} (hm : m ∈ nodes)
    (hn : n ∈ nodes) (hnot : ¬ Apart m.names n.names) : m = n := by
  have hsymm : Std.Symm fun a b : Node => Apart a.names b.names := ⟨fun _ _ hab => hab.symm⟩
  by_contra hne
  exact hnot (h.forall hm hn hne)

/-! ## Slots of a variable -/

namespace Role

/-- A part is written behind the name of its node. -/
theorem suffix_eq_concat {r : Role} {a q : List String} {part : String}
    (h : a ++ r.suffix = q ++ [part]) :
    r = .word ∧ a = q ++ [part] ∨ a = q ∧ r.suffix = [part] := by
  cases r with
  | word =>
    rw [suffix, List.append_nil] at h
    exact .inl ⟨rfl, h⟩
  | _ => exact .inr ⟨(List.append_inj' h rfl).1, (List.append_inj' h rfl).2⟩

theorem eq_ifaceType {r : Role} (h : r.suffix = ["type"]) : r = .ifaceType := by
  cases r <;> first | rfl | (exfalso; revert h; decide)

theorem eq_data {r : Role} (h : r.suffix = ["data"]) : r = .ifaceData ∨ r = .data := by
  cases r <;> first | exact .inl rfl | exact .inr rfl | (exfalso; revert h; decide)

end Role

/-- All roles that a node of a kind has slots for. -/
def StructKind.roles (kind : StructKind) : List Role :=
  kind.wordRoles ++ kind.captureRoles ++ kind.memoryRoles

theorem StructKind.iface_of_mem_roles {kind : StructKind} (h : Role.ifaceType ∈ kind.roles) :
    Role.data ∉ kind.roles := by
  cases kind with
  | iface nonEmpty => cases nonEmpty <;> decide
  | _ => exact absurd h (by decide)

theorem StructKind.nodup_roles (kind : StructKind) :
    kind.wordRoles.Nodup ∧ kind.captureRoles.Nodup ∧ kind.memoryRoles.Nodup := by
  rcases kind with _ | _ | (_ | _) | _ <;> decide

/-- The roles of captures. -/
def Role.isCapture : Role → Bool
  | .str => true
  | .arr => true
  | .value => true
  | .obj => true
  | _ => false

theorem StructKind.isCapture_roles (kind : StructKind) :
    (∀ r ∈ kind.wordRoles, r.isCapture = false) ∧
      (∀ r ∈ kind.captureRoles, r.isCapture = true) ∧
        Role.word ∉ kind.memoryRoles ∧ Role.obj ∉ kind.memoryRoles := by
  rcases kind with _ | _ | (_ | _) | _ <;> decide

/-- The nodes that the planner walks for a variable. -/
def DType.walked (p : Place) (t : DType) : List Node :=
  match t.underlying.objectPointee with
  | some elem => elem.nodes p
  | none => t.nodes p

section
variable {p : Place} {t : DType}

theorem mem_nodeSlots {roles : StructKind → List Role} {nodes : List Node} {s : Slot} :
    s ∈ nodeSlots roles nodes ↔ ∃ n ∈ nodes, s.place = n.place ∧ s.role ∈ roles n.kind := by
  constructor
  · intro h
    obtain ⟨n, hn, hs⟩ := List.mem_flatMap.mp h
    obtain ⟨role, hrole, rfl⟩ := List.mem_map.mp hs
    exact ⟨n, hn, rfl, hrole⟩
  · rintro ⟨n, hn, hplace, hrole⟩
    refine List.mem_flatMap.mpr ⟨n, hn, List.mem_map.mpr ⟨s.role, hrole, ?_⟩⟩
    rw [← hplace]

/-- A slot of a variable is the variable itself, its object, or a slot of a node. -/
theorem DType.mem_slots {s : Slot} (h : s ∈ t.slots p) :
    (s.place = p ∧ (s.role = .word ∨ s.role = .obj)) ∨
      ∃ n ∈ t.walked p, s.place = n.place ∧ s.role ∈ n.kind.roles := by
  unfold slots at h
  unfold walked
  cases hobj : t.underlying.objectPointee with
  | some elem =>
    rw [hobj] at h
    rcases List.mem_append.mp h with h | h
    · rcases List.mem_cons.mp h with rfl | h
      · exact .inl ⟨rfl, .inl rfl⟩
      · rw [List.mem_singleton.mp h]
        exact .inl ⟨rfl, .inr rfl⟩
    · obtain ⟨n, hn, hplace, hrole⟩ := mem_nodeSlots.mp h
      exact .inr ⟨n, hn, hplace, List.mem_append_right _ hrole⟩
  | none =>
    rw [hobj] at h
    rcases List.mem_append.mp h with h | h
    · obtain ⟨n, hn, hplace, hrole⟩ := mem_nodeSlots.mp h
      exact .inr ⟨n, hn, hplace, List.mem_append_left _ (List.mem_append_left _ hrole)⟩
    · obtain ⟨n, hn, hplace, hrole⟩ := mem_nodeSlots.mp h
      exact .inr ⟨n, hn, hplace, List.mem_append_left _ (List.mem_append_right _ hrole)⟩

theorem DType.wellNamed_underlying : ∀ {t : DType}, t.WellNamed → t.underlying.WellNamed
  | .typedef _ t, h => wellNamed_underlying (t := t) h
  | .qual _ t, h => wellNamed_underlying (t := t) h
  | .struct _ _ _ _, h => h
  | .ptr _ _ _, h => h
  | .basic _ _ _, h => h
  | .func _ _ _, h => h
  | .other _ _ _, h => h

theorem DType.wellNamed_pointee {elem : DType} (h : t.WellNamed)
    (hobj : t.underlying.objectPointee = some elem) : elem.WellNamed := by
  have hu := wellNamed_underlying h
  unfold objectPointee at hobj
  split at hobj
  · rename_i u hptr
    rw [hptr] at hu
    split at hobj
    · split at hobj
      · cases hobj
      · obtain rfl := Option.some.inj hobj
        exact hu
    · cases hobj
  · cases hobj

/-- The walked nodes are apart, and below the variable in plain names. -/
theorem DType.walked_apart (h : t.WellNamed) :
    ((t.walked p).Pairwise fun a b => Apart a.names b.names) ∧
      ∀ n ∈ t.walked p, ∃ q : Place, n.place = p ++ q ∧ ∀ x ∈ q.names, PlainName x := by
  unfold walked
  cases hobj : t.underlying.objectPointee with
  | some elem =>
    have helem := wellNamed_pointee h hobj
    exact ⟨nodes_apart elem p helem, nodes_below elem p helem⟩
  | none => exact ⟨nodes_apart t p h, nodes_below t p h⟩

/-- A slot of a variable is below it, in plain names. -/
theorem DType.slot_below (h : t.WellNamed) {s : Slot} (hs : s ∈ t.slots p) :
    ∃ q : Place, s.place = p ++ q ∧ ∀ x ∈ q.names, PlainName x := by
  rcases mem_slots hs with ⟨hplace, -⟩ | ⟨n, hn, hplace, -⟩
  · rw [hplace]
    exact p.below_self
  · obtain ⟨q, hq, hplain⟩ := (walked_apart h).2 n hn
    exact ⟨q, hplace.trans hq, hplain⟩

/-- A slot of a variable that is named like a part of an interface belongs to it. -/
theorem DType.slot_part (h : t.WellNamed) {s s' : Slot} (hs : s ∈ t.slots p)
    (hs' : s' ∈ t.slots p) (hrole : s.role = .ifaceType) {part : String} (hpart : part ≠ "obj")
    (hnames : s'.names = s.place.names ++ [part]) :
    s'.place = s.place ∧ s'.role.suffix = [part] ∧ s'.role ≠ .data := by
  obtain ⟨hapart, hbelow⟩ := walked_apart (p := p) h
  rcases mem_slots hs with ⟨-, hword | hobj⟩ | ⟨n, hn, hplace, hmem⟩
  · rw [hrole] at hword
    cases hword
  · rw [hrole] at hobj
    cases hobj
  rw [hrole] at hmem
  rcases mem_slots hs' with ⟨hplace', hword | hobj⟩ | ⟨m, hm, hplace', hmem'⟩
  · -- The variable is not below one of its nodes.
    obtain ⟨q, hq, -⟩ := hbelow n hn
    rw [Slot.names, hword, hplace, hq, hplace', Role.suffix, List.append_nil] at hnames
    have hlen := congrArg List.length hnames
    simp only [Place.names, List.map_append, List.length_append, List.length_map,
      List.length_singleton] at hlen
    omega
  · rw [Slot.names, hobj, Role.suffix] at hnames
    exact absurd (List.singleton_inj.mp (List.append_inj' hnames rfl).2).symm hpart
  · have hparts : m.names ++ s'.role.suffix = n.names ++ [part] := by
      rw [Slot.names, hplace', hplace] at hnames
      exact hnames
    rcases Role.suffix_eq_concat hparts with ⟨-, hlonger⟩ | ⟨hsame, hsuffix⟩
    · have hnot : ¬ Apart m.names n.names := by
        intro hmn
        rw [hlonger] at hmn
        exact hmn.2 (List.prefix_append _ _)
      rw [Node.eq_of_not_apart hapart hm hn hnot] at hlonger
      have hlen := congrArg List.length hlonger
      simp at hlen
    · have hmn : m = n := by
        refine Node.eq_of_not_apart hapart hm hn ?_
        rw [hsame]
        intro hmn
        exact hmn.ne rfl
      subst hmn
      refine ⟨hplace'.trans hplace.symm, hsuffix, ?_⟩
      intro hdata
      rw [hdata] at hmem'
      exact StructKind.iface_of_mem_roles hmem hmem'

theorem nodup_nodeSlots {roles : StructKind → List Role} (hroles : ∀ kind, (roles kind).Nodup)
    {nodes : List Node} (h : nodes.Pairwise fun a b => Apart a.names b.names) :
    (nodeSlots roles nodes).Nodup := by
  refine List.nodup_flatMap.mpr ⟨fun n _ => ?_, h.imp fun {a b} hab => ?_⟩
  · exact (hroles n.kind).map fun r r' hr => (Slot.mk.inj hr).2
  · intro s ha hb
    obtain ⟨r, -, rfl⟩ := List.mem_map.mp ha
    obtain ⟨r', -, hr'⟩ := List.mem_map.mp hb
    have hplace : b.place = a.place := (Slot.mk.inj hr').1
    exact hab.ne (congrArg Place.names hplace.symm)

theorem DType.nodup_slots (h : t.WellNamed) : (t.slots p).Nodup := by
  have hapart := (walked_apart (p := p) h).1
  unfold walked at hapart
  unfold slots
  cases hobj : t.underlying.objectPointee with
  | some elem =>
    rw [hobj] at hapart
    have hmemory := nodup_nodeSlots (fun kind => kind.nodup_roles.2.2) hapart
    refine List.nodup_append'.mpr ⟨by simp, hmemory, ?_⟩
    intro s hs hnode
    obtain ⟨n, -, -, hrole⟩ := mem_nodeSlots.mp hnode
    obtain ⟨-, -, hword, hobj⟩ := n.kind.isCapture_roles
    rcases List.mem_cons.mp hs with rfl | hs
    · exact hword hrole
    · rw [List.mem_singleton.mp hs] at hrole
      exact hobj hrole
  | none =>
    rw [hobj] at hapart
    have hwords := nodup_nodeSlots (fun kind => kind.nodup_roles.1) hapart
    have hcaptures := nodup_nodeSlots (fun kind => kind.nodup_roles.2.1) hapart
    refine List.nodup_append'.mpr ⟨hwords, hcaptures, ?_⟩
    intro s hword hcapture
    obtain ⟨n, -, -, hrole⟩ := mem_nodeSlots.mp hword
    obtain ⟨m, -, -, hrole'⟩ := mem_nodeSlots.mp hcapture
    have hno := n.kind.isCapture_roles.1 _ hrole
    rw [m.kind.isCapture_roles.2.1 _ hrole'] at hno
    cases hno

end

/-! ## Slots of a plan -/

section
variable {rename : String → String} {vars : List Variable}

theorem planned_sublist (rename : String → String) (k : Nat) (c : FlatCtx) :
    ((planned rename k vars c).map Prod.snd).Sublist vars := by
  induction vars generalizing k c with
  | nil => exact List.Sublist.refl _
  | cons v vars ih =>
    rw [planned]
    split
    · exact List.nil_sublist _
    · dsimp only
      cases (planValue v.type (rename v.name) c).2 with
      | none => exact (ih (k + 1) _).cons v
      | some value => exact (ih (k + 1) _).cons_cons v

/-- The planned variables with distinct names. -/
theorem planned_distinct (h : WellNamed rename vars) :
    ((planned rename 0 vars {}).map fun kv => rename kv.2.name).Nodup := by
  have hplanned : ((planned rename 0 vars {}).map Prod.snd).Sublist vars :=
    planned_sublist rename 0 {}
  have hsub := hplanned.map fun v => rename v.name
  rw [List.map_map] at hsub
  exact h.distinct.sublist hsub

theorem mem_planned {kv : Nat × Variable} (hkv : kv ∈ planned rename 0 vars {}) : kv.2 ∈ vars :=
  (planned_sublist rename 0 {}).subset (List.mem_map_of_mem hkv)

/-- A slot of a plan is below its variable, in plain names. -/
theorem mem_slots_plan (h : WellNamed rename vars) {s : Slot} (hs : s ∈ slots rename vars) :
    ∃ kv ∈ planned rename 0 vars {}, s ∈ kv.2.type.slots [(kv.1, rename kv.2.name)] ∧
      ∃ q : Place, s.place = (kv.1, rename kv.2.name) :: q ∧
        ∀ x ∈ s.place.names, PlainName x := by
  obtain ⟨kv, hkv, hmem⟩ := List.mem_flatMap.mp hs
  have hvar := mem_planned hkv
  obtain ⟨q, hplace, hplain⟩ := DType.slot_below (h.types kv.2 hvar) hmem
  refine ⟨kv, hkv, hmem, q, hplace, ?_⟩
  rw [hplace]
  exact List.forall_mem_cons.mpr ⟨h.plain kv.2 hvar, hplain⟩

/-- A slot that is named like a part of an interface belongs to it. -/
theorem slots_apart (h : WellNamed rename vars) {s s' : Slot} (hs : s ∈ slots rename vars)
    (hs' : s' ∈ slots rename vars) (hrole : s.role = .ifaceType) {part : String}
    (hpart : part ≠ "obj") (hnames : s'.names = s.place.names ++ [part]) :
    s'.place = s.place ∧ s'.role.suffix = [part] ∧ s'.role ≠ .data := by
  obtain ⟨kv, hkv, hmem, q, hplace, -⟩ := mem_slots_plan h hs
  obtain ⟨kv', hkv', hmem', q', hplace', -⟩ := mem_slots_plan h hs'
  have hhead : rename kv'.2.name = rename kv.2.name := by
    rw [Slot.names, hplace, hplace'] at hnames
    exact (List.cons.inj hnames).1
  have hsame : kv' = kv := List.inj_on_of_nodup_map (planned_distinct h) hkv' hkv hhead
  subst hsame
  exact DType.slot_part (h.types _ (mem_planned hkv)) hmem hmem' hrole hpart hnames

theorem nodup_slots (h : WellNamed rename vars) : (slots rename vars).Nodup := by
  refine List.nodup_flatMap.mpr ⟨fun kv hkv => ?_, ?_⟩
  · exact DType.nodup_slots (h.types kv.2 (mem_planned hkv))
  · have hdistinct := List.pairwise_map.mp (planned_distinct h)
    refine hdistinct.imp_of_mem fun {a b} ha hb hne s hsa hsb => hne ?_
    obtain ⟨q, hq, -⟩ := DType.slot_below (h.types _ (mem_planned ha)) hsa
    obtain ⟨r, hr, -⟩ := DType.slot_below (h.types _ (mem_planned hb)) hsb
    exact congrArg Prod.snd (List.cons.inj (hq.symm.trans hr)).1

end

/-! ## Reading the names back -/

/-- A dotted name that ends in a part. -/
theorem names_of_dotted {names : List String} (hdots : ∀ x ∈ names, '.' ∉ x.toList)
    {slot part : String} (hpart : '.' ∉ part.toList)
    (h : ".".intercalate names = slot ++ ("." ++ part)) :
    ∃ q, q ≠ [] ∧ names = q ++ [part] ∧ ".".intercalate q = slot := by
  have hchars : ['.'].intercalate (names.map String.toList) =
      slot.toList ++ '.' :: part.toList := by
    have hlist := congrArg String.toList h
    rw [String.toList_intercalate, String.toList_append, String.toList_append] at hlist
    exact hlist
  have hdots' : ∀ x ∈ names.map String.toList, '.' ∉ x := List.forall_mem_map.mpr hdots
  obtain ⟨q, hne, hsplit, hslot⟩ := eq_of_intercalate_concat hdots' hpart hchars
  obtain ⟨a, b, rfl, rfl, hb⟩ := List.map_eq_append_iff.mp hsplit
  obtain ⟨x, rfl, hx⟩ := List.map_eq_singleton_iff.mp hb
  obtain rfl := String.toList_inj.mp hx
  refine ⟨a, ?_, rfl, ?_⟩
  · rintro rfl
    exact hne rfl
  · apply String.toList_inj.mp
    rw [String.toList_intercalate]
    exact hslot

theorem dotted_injective {xs ys : List String} (hx : ∀ x ∈ xs, '.' ∉ x.toList)
    (hy : ∀ y ∈ ys, '.' ∉ y.toList) (hxs : xs ≠ []) (hys : ys ≠ [])
    (h : ".".intercalate xs = ".".intercalate ys) : xs = ys := by
  have hlist := congrArg String.toList h
  rw [String.toList_intercalate, String.toList_intercalate] at hlist
  have hmap := intercalate_injective (List.forall_mem_map.mpr hx) (List.forall_mem_map.mpr hy)
    (fun hnil => hxs (List.map_eq_nil_iff.mp hnil))
    (fun hnil => hys (List.map_eq_nil_iff.mp hnil)) hlist
  exact List.map_injective_iff.mpr (fun _ _ => String.toList_inj.mp) hmap

section
variable {rename : String → String} {vars : List Variable}

theorem slot_dots (h : WellNamed rename vars) {s : Slot} (hs : s ∈ slots rename vars) :
    (∀ x ∈ s.place.names, '.' ∉ x.toList) ∧ ∀ x ∈ s.names, '.' ∉ x.toList := by
  obtain ⟨-, -, -, -, -, hplain⟩ := mem_slots_plan h hs
  have hplace : ∀ x ∈ s.place.names, '.' ∉ x.toList := fun x hx => (hplain x hx).1
  refine ⟨hplace, List.forall_mem_append.mpr ⟨hplace, ?_⟩⟩
  cases s.role <;> decide

/-- A leaf that is named like a type slot is the type slot of an interface. -/
theorem slot_of_type (h : WellNamed rename vars) {s : Slot} (hs : s ∈ slots rename vars)
    {slot : String} (hname : s.name = slot ++ ".type") :
    s.role = .ifaceType ∧ s.place.name = slot := by
  obtain ⟨-, -, -, q, -, hplain⟩ := mem_slots_plan h hs
  have hdotted : ".".intercalate s.names = slot ++ ("." ++ "type") := hname
  obtain ⟨q, -, hnames, hslot⟩ := names_of_dotted (slot_dots h hs).2 (by decide) hdotted
  rcases Role.suffix_eq_concat hnames with ⟨-, hplace⟩ | ⟨hplace, hsuffix⟩
  · have hmem : "type" ∈ s.place.names := by
      rw [hplace]
      exact List.mem_append_right q (List.mem_singleton_self _)
    exact absurd rfl (hplain "type" hmem).2
  · rw [← hplace] at hslot
    exact ⟨Role.eq_ifaceType hsuffix, hslot⟩

/-- A leaf that is named like a part of an interface belongs to it. -/
theorem slot_of_part (h : WellNamed rename vars) {s s' : Slot} (hs : s ∈ slots rename vars)
    (hs' : s' ∈ slots rename vars) (hrole : s.role = .ifaceType) {part : String}
    (hdot : '.' ∉ part.toList) (hpart : part ≠ "obj")
    (hname : s'.name = s.place.name ++ ("." ++ part)) :
    s'.place = s.place ∧ s'.role.suffix = [part] ∧ s'.role ≠ .data := by
  obtain ⟨kv, -, -, r, hplace, -⟩ := mem_slots_plan h hs
  obtain ⟨q, hne, hnames, hslot⟩ := names_of_dotted (slot_dots h hs').2 hdot hname
  have hq : ∀ x ∈ q, '.' ∉ x.toList := by
    intro x hx
    apply (slot_dots h hs').2
    rw [hnames]
    exact List.mem_append_left _ hx
  have hsame : q = s.place.names :=
    dotted_injective hq (slot_dots h hs).1 hne (by rw [hplace]; exact List.cons_ne_nil _ _) hslot
  rw [hsame] at hnames
  exact slots_apart h hs hs' hrole hpart hnames

end

/-! ## Marking -/

theorem hasSuffix_iff {name suffix : String} :
    hasSuffix name suffix = true ↔ ∃ slot, name = slot ++ suffix := by
  rw [hasSuffix, List.isSuffixOf_iff_suffix]
  constructor
  · rintro ⟨chars, hchars⟩
    refine ⟨String.ofList chars, ?_⟩
    apply String.toList_inj.mp
    rw [String.toList_append, String.toList_ofList, hchars]
  · rintro ⟨slot, rfl⟩
    rw [String.toList_append]
    exact List.suffix_append _ _

theorem trimSuffix_append (slot suffix : String) : trimSuffix (slot ++ suffix) suffix = slot := by
  rw [trimSuffix, if_pos (hasSuffix_iff.mpr ⟨slot, rfl⟩)]
  apply String.toList_inj.mp
  rw [String.toList_ofList, String.toList_append, List.length_append, Nat.add_sub_cancel,
    List.take_left']
  rfl

/-- `typeIdx` finds the last leaf with the name of the type slot. -/
theorem typeIdx_some {args : List FetchArg} {slot : String} {ti : Nat}
    (h : typeIdx args slot = some ti) : ∃ b, args[ti]? = some b ∧ b.varname = slot ++ ".type" := by
  obtain ⟨⟨b, i⟩, hlast, rfl⟩ := Option.map_eq_some_iff.mp h
  obtain ⟨hmem, htest⟩ := List.mem_filter.mp (List.mem_of_getLast? hlast)
  rw [Bool.and_eq_true, beq_iff_eq] at htest
  obtain ⟨slot', hname⟩ := hasSuffix_iff.mp htest.1
  refine ⟨b, List.mem_zipIdx_iff_getElem?.mp hmem, ?_⟩
  rw [hname, trimSuffix_append] at htest
  rw [hname, htest.2]

theorem typeIdx_ne_none {args : List FetchArg} {slot : String} {j : Nat} {b : FetchArg}
    (hb : args[j]? = some b) (hname : b.varname = slot ++ ".type") :
    ∃ ti, typeIdx args slot = some ti := by
  have hmem : (b, j) ∈ args.zipIdx.filter fun x =>
      hasSuffix x.1.varname ".type" && trimSuffix x.1.varname ".type" == slot := by
    refine List.mem_filter.mpr ⟨List.mem_zipIdx_iff_getElem?.mpr hb, ?_⟩
    rw [hname, trimSuffix_append, beq_self_eq_true, Bool.and_true]
    exact hasSuffix_iff.mpr ⟨slot, rfl⟩
  have hlast := List.getLast?_eq_some_getLast (List.ne_nil_of_mem hmem)
  exact ⟨_, congrArg (Option.map Prod.snd) hlast⟩

/-- The leaf at a place of a marked list. -/
theorem getElem?_markIfaceSlots {args : List FetchArg} (hplain : ∀ a ∈ args, a.ifaceData = false)
    {i : Nat} {a : FetchArg} (ha : (markIfaceSlots args)[i]? = some a) :
    (a.ifaceData = true → ∃ slot b, a.varname = slot ++ ".data" ∧
        args[a.typeIndex]? = some b ∧ b.varname = slot ++ ".type") ∧
      (∀ (slot : String) (j : Nat) (b : FetchArg), a.varname = slot ++ ".data" → args[j]? = some b →
        b.varname = slot ++ ".type" → a.ifaceData = true) := by
  rw [markIfaceSlots, List.getElem?_map] at ha
  obtain ⟨a', ha', heq⟩ := Option.map_eq_some_iff.mp ha
  have hunmarked := hplain a' (List.mem_of_getElem? ha')
  split at heq
  · rename_i hdata
    obtain ⟨slot, hname⟩ := hasSuffix_iff.mp hdata
    have htrim : trimSuffix a'.varname ".data" = slot := by rw [hname, trimSuffix_append]
    rw [htrim] at heq
    cases hti : typeIdx args slot with
    | some ti =>
      rw [hti] at heq
      subst heq
      obtain ⟨b, hb, hbname⟩ := typeIdx_some hti
      exact ⟨fun _ => ⟨slot, b, hname, hb, hbname⟩, fun _ _ _ _ _ _ => rfl⟩
    | none =>
      rw [hti] at heq
      subst heq
      refine ⟨fun h => absurd (hunmarked.symm.trans h) Bool.false_ne_true, ?_⟩
      intro slot' j b hname' hb hbname
      rw [hname', trimSuffix_append] at htrim
      obtain ⟨ti, hsome⟩ := typeIdx_ne_none hb hbname
      rw [htrim, hti] at hsome
      cases hsome
  · rename_i hdata
    subst heq
    refine ⟨fun h => absurd (hunmarked.symm.trans h) Bool.false_ne_true, ?_⟩
    intro slot j b hname _ _
    exact absurd (hasSuffix_iff.mpr ⟨slot, hname⟩) hdata

section
variable {rename : String → String} {vars : List Variable}

theorem slot_of_leaf {leaves : List FetchArg}
    (h : leaves.map (·.varname) = (slots rename vars).map Slot.name) {j : Nat} :
    (∀ b, leaves[j]? = some b → ∃ s, (slots rename vars)[j]? = some s ∧ b.varname = s.name) ∧
      ∀ s, (slots rename vars)[j]? = some s → ∃ b, leaves[j]? = some b ∧ b.varname = s.name := by
  have hj := congrArg (·[j]?) h
  simp only [List.getElem?_map] at hj
  constructor
  · intro b hb
    rw [hb] at hj
    obtain ⟨s, hs, hname⟩ := Option.map_eq_some_iff.mp hj.symm
    exact ⟨s, hs, hname.symm⟩
  · intro s hs
    rw [hs] at hj
    exact Option.map_eq_some_iff.mp hj

/-- Exactly the data words of interfaces whose type slot is emitted too are marked, with the index
of this slot. `deriveArgs` and `deriveRets` are the plans with `id` and with `retName`. -/
theorem derive_marks (h : WellNamed rename vars) {i : Nat} {a : FetchArg}
    (ha : (derive rename vars).1[i]? = some a) :
    ∃ s, (slots rename vars)[i]? = some s ∧ a.varname = s.name ∧
      (a.ifaceData = true ↔ s.role = .ifaceData ∧ s.typeSlot ∈ slots rename vars) ∧
      (a.ifaceData = true →
        ∀ j, (slots rename vars)[j]? = some s.typeSlot ↔ j = a.typeIndex) := by
  obtain ⟨s, hs, hname⟩ := (slot_of_leaf (derive_names rename vars)).1 a ha
  have hmem : s ∈ slots rename vars := List.mem_of_getElem? hs
  have hplain : ∀ b ∈ (planAll rename vars {}).1.build, b.ifaceData = false :=
    List.forall_mem_map.mpr fun _ _ => rfl
  obtain ⟨hmarked, hmarks⟩ := getElem?_markIfaceSlots hplain ha
  have hfound : a.ifaceData = true →
      s.role = .ifaceData ∧ (slots rename vars)[a.typeIndex]? = some s.typeSlot := by
    intro hiface
    obtain ⟨slot, b, hdata, hb, htype⟩ := hmarked hiface
    obtain ⟨s', hs', hname'⟩ := (slot_of_leaf (names_build rename vars)).1 b hb
    have hmem' : s' ∈ slots rename vars := List.mem_of_getElem? hs'
    obtain ⟨hrole, hslot⟩ := slot_of_type h hmem' (hname'.symm.trans htype)
    have hpart : s.name = s'.place.name ++ ("." ++ "data") := by
      rw [hslot, ← hname]
      exact hdata
    obtain ⟨hplace, hsuffix, hne⟩ :=
      slot_of_part h hmem' hmem hrole (by decide) (by decide) hpart
    refine ⟨(Role.eq_data hsuffix).resolve_right hne, ?_⟩
    rw [hs', Slot.typeSlot, hplace, ← hrole]
  refine ⟨s, hs, hname, ⟨fun hiface => ?_, ?_⟩, fun hiface j => ⟨fun hj => ?_, ?_⟩⟩
  · exact ⟨(hfound hiface).1, List.mem_of_getElem? (hfound hiface).2⟩
  · rintro ⟨hrole, htype⟩
    obtain ⟨j, hj⟩ := List.mem_iff_getElem?.mp htype
    obtain ⟨b, hb, hbname⟩ := (slot_of_leaf (names_build rename vars)).2 _ hj
    obtain ⟨kv, -, -, q, hplace, -⟩ := mem_slots_plan h hmem
    have hne : s.place ≠ [] := by
      rw [hplace]
      exact List.cons_ne_nil _ _
    refine hmarks s.place.name j b ?_ hb (hbname.trans (Slot.name_eq hne .ifaceType))
    rw [hname]
    obtain ⟨place, role⟩ := s
    dsimp only at hrole
    rw [hrole]
    exact Slot.name_eq hne .ifaceData
  · have hlt : j < (slots rename vars).length := (List.getElem?_eq_some_iff.mp hj).1
    exact (List.getElem?_inj hlt (nodup_slots h)).mp (hj.trans (hfound hiface).2.symm)
  · rintro rfl
    exact (hfound hiface).2

end

/-! ## An interface among other variables -/

/-- `name string, v any`. -/
def anyVars : List Variable :=
  [{ name := "name", type := .struct "string" "string" 16 .nil },
    { name := "v"
      type := .struct "interface {}" "runtime.eface" 16
        (.cons "_type" 0 (.basic .uint "uintptr" 8)
          (.cons "data" 8 (.basic .uint "uintptr" 8) .nil)) }]

/-- The data word of `v`. -/
def anyData : FetchArg :=
  { varname := "v.data", type := "u64", size := 8, rules := [.register (some .di)],
    ifaceData := true, typeIndex := 3 }

/-- The data word of the interface is marked, after the string that has one as well. -/
theorem anyData_marks :
    ∃ s, (slots id anyVars)[4]? = some s ∧ anyData.varname = s.name ∧
      (anyData.ifaceData = true ↔ s.role = .ifaceData ∧ s.typeSlot ∈ slots id anyVars) ∧
      (anyData.ifaceData = true →
        ∀ j, (slots id anyVars)[j]? = some s.typeSlot ↔ j = anyData.typeIndex) := by
  have hplain : ∀ name ∈ ["name", "v", "_type", "data"], PlainName name := by
    unfold PlainName
    decide
  have h : WellNamed id anyVars := by
    refine ⟨by decide, ?_, ?_⟩
    · intro v hv
      apply hplain
      rcases List.mem_cons.mp hv with rfl | hv
      · decide
      · rw [List.mem_singleton.mp hv]
        decide
    · intro v hv
      rcases List.mem_cons.mp hv with rfl | hv
      · exact ⟨List.nodup_nil, trivial⟩
      · rw [List.mem_singleton.mp hv]
        exact ⟨by decide, hplain _ (by decide), trivial, hplain _ (by decide), trivial, trivial⟩
  have ha : (derive id anyVars).1[4]? = some anyData := by decide +kernel
  exact derive_marks h ha

end GoFtrace.Uprobe
