import Mathlib
import AddingCalculator.Store

/-!
# Unfolding finds the tree of a store

`Unfolds` says which tree stands below a node, whatever the order of the nodes and however often a node is shared. The
passes over a store find this tree: a pass that finds no new node has found every node that has a tree.
-/

namespace AddingCalculator

namespace Construct

theorem map_congr {α β : Type} {f g : α → β} (c : Construct α) (h : ∀ x ∈ c.children, f x = g x) :
    c.map f = c.map g := by
  cases c <;> simp_all [map, children]

theorem map_map {α β γ : Type} (f : α → β) (g : β → γ) (c : Construct α) :
    (c.map f).map g = c.map fun x => g (f x) := by
  cases c <;> simp [map, Function.comp_def]

theorem map_id {α : Type} (c : Construct α) : (c.map fun x => x) = c := by
  cases c <;> simp [map]

theorem map?_eq_some {α β : Type} {f : α → Option β} {g : α → β} (c : Construct α)
    (h : ∀ x ∈ c.children, f x = some (g x)) : c.map? f = some (c.map g) := by
  have hitems (xs : List α) (hx : ∀ x ∈ xs, f x = some (g x)) : xs.mapM f = some (xs.map g) := by
    induction xs with
    | nil => rfl
    | cons x xs ih =>
      rw [List.mapM_cons, hx x (by simp), ih fun y hy => hx y (List.mem_cons_of_mem x hy)]
      rfl
  cases c with
  | program items => simp [map?, map, hitems items h]
  | _ => simp_all [map?, map, children]

theorem exists_of_map? {α β : Type} [Inhabited β] {f : α → Option β} {c : Construct α} {d : Construct β}
    (h : c.map? f = some d) : ∃ g : α → β, (∀ x ∈ c.children, f x = some (g x)) ∧ d = c.map g := by
  have hitems (xs : List α) (ys : List β) (hx : xs.mapM f = some ys) : ∀ x ∈ xs, ∃ y, f x = some y := by
    induction xs generalizing ys with
    | nil => simp
    | cons x xs ih =>
      simp only [List.mapM_cons, Option.bind_eq_bind, Option.pure_def, Option.bind_eq_some_iff] at hx
      obtain ⟨y, hy, zs, hz, -⟩ := hx
      intro z hz'
      rcases List.mem_cons.mp hz' with rfl | hz'
      · exact ⟨y, hy⟩
      · exact ih zs hz z hz'
  have hfound : ∀ x ∈ c.children, ∃ y, f x = some y := by
    cases c with
    | program items =>
      simp only [map?, Option.bind_eq_bind, Option.pure_def, Option.bind_eq_some_iff] at h
      obtain ⟨ys, hy, -⟩ := h
      exact hitems items ys hy
    | _ =>
      simp only [map?, Option.bind_eq_bind, Option.pure_def, Option.bind_eq_some_iff] at h
      simp only [children, List.mem_cons, List.not_mem_nil, or_false, forall_eq_or_imp, forall_eq]
      grind
  have hget : ∀ x ∈ c.children, f x = some ((f x).getD default) := by
    intro x hx
    obtain ⟨y, hy⟩ := hfound x hx
    rw [hy, Option.getD_some]
  exact ⟨fun x => (f x).getD default, hget, Option.some.inj (h.symm.trans (c.map?_eq_some hget))⟩

end Construct

instance : Inhabited TypedTree := ⟨.node none (.program [])⟩

namespace Store

inductive Unfolds (s : Store) : NodeId → TypedTree → Prop
  | node {id : NodeId} {n : Node} {below : NodeId → TypedTree} (hn : s.node? id = some n)
      (hc : ∀ child ∈ n.construct.children, Unfolds s child (below child)) :
      Unfolds s id (.node n.type (n.construct.map below))

theorem Unfolds.unique {s : Store} {id : NodeId} {t u : TypedTree} (ht : s.Unfolds id t) (hu : s.Unfolds id u) :
    t = u := by
  induction ht generalizing u with
  | @node id n below hn hc ih =>
    cases hu with
    | @node _ m below' hm hc' =>
      obtain rfl : n = m := Option.some.inj (hn.symm.trans hm)
      congr 1
      exact n.construct.map_congr fun child hchild => ih child hchild (hc' child hchild)

theorem Unfolds.of_map {α : Type} {s : Store} {id : NodeId} {n : Node} {c : Construct α} {number : α → NodeId}
    {tree : α → TypedTree} (hn : s.node? id = some n) (hc : n.construct = c.map number)
    (h : ∀ x ∈ c.children, s.Unfolds (number x) (tree x)) : s.Unfolds id (.node n.type (c.map tree)) := by
  classical
  let below (child : NodeId) : TypedTree := if h : ∃ t, s.Unfolds child t then h.choose else default
  have hbelow (x : α) (hx : x ∈ c.children) : below (number x) = tree x := by
    have he : ∃ t, s.Unfolds (number x) t := ⟨tree x, h x hx⟩
    simp only [below, dif_pos he]
    exact he.choose_spec.unique (h x hx)
  have htree : n.construct.map below = c.map tree := by
    rw [hc, Construct.map_map]
    exact c.map_congr hbelow
  rw [← htree]
  refine .node hn fun child hchild => ?_
  rw [hc, Construct.children_map, List.mem_map] at hchild
  obtain ⟨x, hx, rfl⟩ := hchild
  rw [hbelow x hx]
  exact h x hx

def Found (u : Unfolding) (id : NodeId) : Prop := ∃ t, u.tree? id = some t

def Sound (s : Store) (u : Unfolding) : Prop := ∀ id t, u.tree? id = some t → s.Unfolds id t

theorem tree?_setIfInBounds (u : Unfolding) (id : NodeId) (t : TypedTree) (j : NodeId) :
    Unfolding.tree? (u.setIfInBounds id (some t)) j = if id = j ∧ id < u.size then some t else u.tree? j := by
  simp only [Unfolding.tree?, Array.getElem?_setIfInBounds]
  split
  · rename_i h
    subst h
    split <;> rename_i h <;> simp [h]
  · rename_i h
    simp [h]

theorem unfoldNode_size (s : Store) (u : Unfolding) (id : NodeId) : (s.unfoldNode u id).size = u.size := by
  unfold unfoldNode
  split
  · split <;> simp
  · rfl

theorem unfoldNode_keeps {s : Store} {u : Unfolding} {id j : NodeId} {t : TypedTree} (h : u.tree? j = some t) :
    (s.unfoldNode u id).tree? j = some t := by
  unfold unfoldNode
  split
  · rename_i hnone _
    split
    · rw [tree?_setIfInBounds, if_neg]
      · exact h
      · rintro ⟨rfl, -⟩
        rw [h] at hnone
        cases hnone
    · exact h
  · exact h

theorem unfoldNode_sound {s : Store} {u : Unfolding} (id : NodeId) (h : s.Sound u) : s.Sound (s.unfoldNode u id) := by
  unfold unfoldNode
  split
  · rename_i n _ hn
    split
    · rename_i c hc
      intro j t hj
      rw [tree?_setIfInBounds] at hj
      split at hj
      · rename_i hid
        obtain ⟨below, hbelow, rfl⟩ := Construct.exists_of_map? hc
        obtain rfl := Option.some.inj hj
        rw [← hid.1]
        exact .node hn fun child hchild => h child _ (hbelow child hchild)
      · exact h j t hj
    · exact h
  · exact h

theorem unfoldNode_found {s : Store} {u : Unfolding} {id : NodeId} {n : Node} (hn : s.node? id = some n)
    (hu : id < u.size) (h : ∀ child ∈ n.construct.children, Found u child) : Found (s.unfoldNode u id) id := by
  by_cases hid : Found u id
  · obtain ⟨t, ht⟩ := hid
    exact ⟨t, unfoldNode_keeps ht⟩
  · have hnone : u.tree? id = none := by
      rw [Option.eq_none_iff_forall_ne_some]
      exact fun t ht => hid ⟨t, ht⟩
    have hc := Construct.map?_eq_some (f := u.tree?) (g := fun child => (u.tree? child).getD default) n.construct
      fun child hchild => by
        obtain ⟨t, ht⟩ := h child hchild
        simp [ht]
    refine ⟨.node n.type (n.construct.map fun child => (u.tree? child).getD default), ?_⟩
    simp [unfoldNode, hnone, hn, hc, tree?_setIfInBounds, hu]

theorem foldl_unfoldNode_keeps {s : Store} (ids : List NodeId) {u : Unfolding} {j : NodeId} {t : TypedTree}
    (h : u.tree? j = some t) : (ids.foldl s.unfoldNode u).tree? j = some t := by
  induction ids generalizing u with
  | nil => exact h
  | cons id ids ih => exact ih (unfoldNode_keeps h)

theorem foldl_unfoldNode_sound {s : Store} (ids : List NodeId) {u : Unfolding} (h : s.Sound u) :
    s.Sound (ids.foldl s.unfoldNode u) := by
  induction ids generalizing u with
  | nil => exact h
  | cons id ids ih => exact ih (unfoldNode_sound id h)

theorem foldl_unfoldNode_size {s : Store} (ids : List NodeId) (u : Unfolding) :
    (ids.foldl s.unfoldNode u).size = u.size := by
  induction ids generalizing u with
  | nil => rfl
  | cons id ids ih => rw [List.foldl_cons, ih, unfoldNode_size]

theorem foldl_unfoldNode_found {s : Store} {ids : List NodeId} {u : Unfolding} {id : NodeId} {n : Node}
    (hid : id ∈ ids) (hn : s.node? id = some n) (hu : id < u.size)
    (h : ∀ child ∈ n.construct.children, Found u child) : Found (ids.foldl s.unfoldNode u) id := by
  induction ids generalizing u with
  | nil => cases hid
  | cons j ids ih =>
    rcases List.mem_cons.mp hid with rfl | hid
    · obtain ⟨t, ht⟩ := unfoldNode_found hn hu h
      exact ⟨t, foldl_unfoldNode_keeps ids ht⟩
    · apply ih hid
      · rwa [unfoldNode_size]
      · intro child hchild
        obtain ⟨t, ht⟩ := h child hchild
        exact ⟨t, unfoldNode_keeps ht⟩

theorem node?_lt {s : Store} {id : NodeId} {n : Node} (h : s.node? id = some n) : id < s.size :=
  (Array.getElem?_eq_some_iff.mp h).1

def pass (s : Store) (u : Unfolding) : Unfolding := (List.range s.size).foldl s.unfoldNode u

theorem found_of_pass {s : Store} {u : Unfolding} (hsize : u.size = s.size)
    (hpass : ∀ id, id < s.size → Found (s.pass u) id → Found u id) {id : NodeId} {t : TypedTree} (h : s.Unfolds id t) :
    Found u id := by
  induction h with
  | @node id n below hn hc ih =>
    have hid := node?_lt hn
    apply hpass id hid
    exact foldl_unfoldNode_found (List.mem_range.mpr hid) hn (hsize ▸ hid) ih

open Classical in
noncomputable def foundCount (s : Store) (u : Unfolding) : ℕ :=
  ((Finset.range s.size).filter fun id => Found u id).card

theorem foundCount_lt_pass {s : Store} {u : Unfolding} {id : NodeId} {t : TypedTree} (hsize : u.size = s.size)
    (h : s.Unfolds id t) (hid : ¬ Found u id) : s.foundCount u < s.foundCount (s.pass u) := by
  classical
  -- A pass that finds no new node would have found this one.
  apply Finset.card_lt_card
  refine Finset.ssubset_iff_subset_ne.mpr ⟨fun j hj => ?_, fun heq => hid ?_⟩
  · simp only [Finset.mem_filter] at hj ⊢
    obtain ⟨hj, t, ht⟩ := hj
    exact ⟨hj, t, foldl_unfoldNode_keeps _ ht⟩
  · apply found_of_pass hsize _ h
    intro j hj hfound
    have hmem : j ∈ (Finset.range s.size).filter fun id => Found (s.pass u) id := by
      simp only [Finset.mem_filter, Finset.mem_range]
      exact ⟨hj, hfound⟩
    rw [← heq] at hmem
    exact (Finset.mem_filter.mp hmem).2

theorem found_of_foundCount {s : Store} {u : Unfolding} (h : s.size ≤ s.foundCount u) {id : NodeId}
    (hid : id < s.size) : Found u id := by
  classical
  have hall : (Finset.range s.size).filter (fun id => Found u id) = Finset.range s.size := by
    apply Finset.eq_of_subset_of_card_le (Finset.filter_subset _ _)
    rw [Finset.card_range]
    exact h
  have hmem : id ∈ (Finset.range s.size).filter fun id => Found u id := by
    rw [hall]
    exact Finset.mem_range.mpr hid
  exact (Finset.mem_filter.mp hmem).2

theorem unfold_sound {s : Store} (n : ℕ) {u : Unfolding} (h : s.Sound u) : s.Sound (s.unfold n u) := by
  induction n generalizing u with
  | zero => exact h
  | succ n ih =>
    rw [unfold]
    split
    · exact h
    · exact ih (foldl_unfoldNode_sound _ h)

theorem unfold_found {s : Store} {t : TypedTree} (h : s.Unfolds root t) (n : ℕ) {u : Unfolding}
    (hsize : u.size = s.size) (hn : s.size ≤ s.foundCount u + n) : Found (s.unfold n u) root := by
  induction n generalizing u with
  | zero =>
    cases h with
    | node hroot _ => exact found_of_foundCount hn (node?_lt hroot)
  | succ n ih =>
    rw [unfold]
    split
    · rename_i hroot
      exact Option.isSome_iff_exists.mp hroot
    · rename_i hroot
      have hlt : s.foundCount u < s.foundCount (s.pass u) :=
        foundCount_lt_pass hsize h fun ⟨u, hu⟩ => hroot (by rw [hu]; rfl)
      apply ih
      · rw [foldl_unfoldNode_size, hsize]
      · change s.size ≤ s.foundCount (s.pass u) + n
        omega

theorem tree?_eq_some_iff (s : Store) (t : TypedTree) : s.tree? = some t ↔ s.Unfolds root t := by
  have hempty : s.Sound (.replicate s.size none) := by
    intro id t h
    simp only [Unfolding.tree?, Array.getElem?_replicate] at h
    split at h <;> cases h
  constructor
  · exact unfold_sound s.size hempty root t
  · intro h
    obtain ⟨u, hu⟩ := unfold_found h s.size (u := .replicate s.size none) Array.size_replicate (by omega)
    rw [tree?, hu, (unfold_sound s.size hempty root u hu).unique h]

end Store

end AddingCalculator
