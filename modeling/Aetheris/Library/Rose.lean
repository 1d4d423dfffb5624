import Mathlib

/-!
# Trees with ordered children

A rose tree is a value with a list of trees below it.  A property of all trees is shown by
`Rose.induction`, from the children to the node; the values in preorder, other values and the height
are recursions over the tree and the list of its children at once, and each has its equation for a
node.

A place in a tree is the list of the numbers of the children on the way down to it, and
`Rose.subtree` is the tree there.  `Rose.mapPlaces` changes each value by what is said for its
place.  Two such changes, one after the other, are one of the same kind, and a change makes no
difference to another one exactly if it makes none at any place.
-/

namespace Aetheris

/-- A node with its children. -/
inductive Rose (α : Type*) where
  | node (value : α) (children : List (Rose α))

namespace Rose

variable {α β : Type*}

/-- The value of the root. -/
def value : Rose α → α
  | node a _ => a

/-- The trees below the root. -/
def children : Rose α → List (Rose α)
  | node _ cs => cs

@[simp] theorem value_node (a : α) (cs : List (Rose α)) : (node a cs).value = a := rfl

@[simp] theorem children_node (a : α) (cs : List (Rose α)) : (node a cs).children = cs := rfl

/-- **Induction over a tree**: a node has the property if its children have it. -/
theorem induction {P : Rose α → Prop} (h : ∀ a cs, (∀ c ∈ cs, P c) → P (node a cs)) (t : Rose α) :
    P t := by
  refine @Rose.rec α P (fun cs => ∀ c ∈ cs, P c) (fun a cs => h a cs)
    (fun c hc => absurd hc List.not_mem_nil) (fun c cs hc hcs d hd => ?_) t
  rcases List.mem_cons.mp hd with rfl | hd
  · exact hc
  · exact hcs d hd

mutual

/-- The values of a tree. -/
def preorder : Rose α → List α
  | node a cs => a :: preorders cs

/-- The values of some trees. -/
def preorders : List (Rose α) → List α
  | [] => []
  | c :: cs => preorder c ++ preorders cs

end

theorem preorders_eq (cs : List (Rose α)) : preorders cs = cs.flatMap preorder := by
  induction cs with
  | nil => rw [preorders, List.flatMap_nil]
  | cons c cs ih => rw [preorders, ih, List.flatMap_cons]

theorem preorder_node (a : α) (cs : List (Rose α)) :
    preorder (node a cs) = a :: cs.flatMap preorder := by
  rw [preorder, preorders_eq]

mutual

/-- A tree with other values. -/
def map (f : α → β) : Rose α → Rose β
  | node a cs => node (f a) (maps f cs)

/-- Trees with other values. -/
def maps (f : α → β) : List (Rose α) → List (Rose β)
  | [] => []
  | c :: cs => map f c :: maps f cs

end

theorem maps_eq (f : α → β) (cs : List (Rose α)) : maps f cs = cs.map (map f) := by
  induction cs with
  | nil => rw [maps, List.map_nil]
  | cons c cs ih => rw [maps, ih, List.map_cons]

theorem map_node (f : α → β) (a : α) (cs : List (Rose α)) :
    map f (node a cs) = node (f a) (cs.map (map f)) := by
  rw [map, maps_eq]

theorem value_map (f : α → β) (t : Rose α) : (t.map f).value = f t.value := by
  obtain ⟨a, cs⟩ := t
  rw [map_node, value_node, value_node]

theorem map_eq_self {f : α → α} {t : Rose α} (h : ∀ a ∈ t.preorder, f a = a) : t.map f = t := by
  induction t using induction with
  | h a cs ih =>
    rw [preorder_node] at h
    rw [map_node, h a List.mem_cons_self]
    have hchildren : ∀ c ∈ cs, c.map f = c := fun c hc => ih c hc fun b hb =>
      h b (List.mem_cons_of_mem a (List.mem_flatMap.mpr ⟨c, hc, hb⟩))
    exact congrArg _ ((List.map_congr_left hchildren).trans (List.map_id' cs))

theorem map_map {γ : Type*} (f : α → β) (g : β → γ) (t : Rose α) :
    (t.map f).map g = t.map fun a => g (f a) := by
  induction t using induction with
  | h a cs ih =>
    rw [map_node, map_node, map_node, List.map_map]
    exact congrArg _ (List.map_congr_left ih)

mutual

/-- The number of values on the longest way down. -/
def height : Rose α → ℕ
  | node _ cs => heights cs + 1

/-- The greatest height of some trees. -/
def heights : List (Rose α) → ℕ
  | [] => 0
  | c :: cs => max (height c) (heights cs)

end

theorem heights_le_iff {cs : List (Rose α)} {n : ℕ} : heights cs ≤ n ↔ ∀ c ∈ cs, c.height ≤ n := by
  induction cs with
  | nil => exact ⟨fun _ c hc => absurd hc List.not_mem_nil, fun _ => Nat.zero_le n⟩
  | cons c cs ih => rw [heights, Nat.max_le, ih, List.forall_mem_cons]

theorem height_node_le_succ {a : α} {cs : List (Rose α)} {n : ℕ} :
    (node a cs).height ≤ n + 1 ↔ ∀ c ∈ cs, c.height ≤ n := by
  rw [height, Nat.add_le_add_iff_right, heights_le_iff]

theorem heights_congr {as : List (Rose α)} {bs : List (Rose β)}
    (h : as.map height = bs.map height) : heights as = heights bs := by
  induction as generalizing bs with
  | nil =>
    cases bs with
    | nil => rfl
    | cons b bs => exact absurd h (List.cons_ne_nil _ _).symm
  | cons a as ih =>
    cases bs with
    | nil => exact absurd h (List.cons_ne_nil _ _)
    | cons b bs =>
      obtain ⟨hhead, htail⟩ := List.cons_eq_cons.mp h
      rw [heights, heights, hhead, ih htail]

theorem height_map (f : α → β) (t : Rose α) : (t.map f).height = t.height := by
  induction t using induction with
  | h a cs ih =>
    rw [map_node, height, height]
    refine congrArg (· + 1) (heights_congr ?_)
    rw [List.map_map]
    exact List.map_congr_left ih

/-- The tree at a place, which is given by the numbers of the children on the way down. -/
def subtree : List ℕ → Rose α → Option (Rose α)
  | [], t => some t
  | i :: place, t => (t.children[i]?).bind (subtree place)

theorem subtree_node_cons (i : ℕ) (place : List ℕ) (a : α) (cs : List (Rose α)) :
    subtree (i :: place) (node a cs) = (cs[i]?).bind (subtree place) := rfl

theorem subtree_map (f : α → β) (place : List ℕ) (t : Rose α) :
    subtree place (t.map f) = (subtree place t).map (map f) := by
  induction place generalizing t with
  | nil => rfl
  | cons i place ih =>
    obtain ⟨a, cs⟩ := t
    rw [map_node, subtree_node_cons, subtree_node_cons, List.getElem?_map]
    cases cs[i]? with
    | none => rfl
    | some c => exact ih c

/-! ## Changes of the values -/

mutual

/-- Each value is changed by what is said for its place. -/
def mapPlaces : (List ℕ → α → β) → Rose α → Rose β
  | f, node a cs => node (f [] a) (mapPlacesFrom f 0 cs)

/-- The same for some trees, of which the first one is the child of the given number. -/
def mapPlacesFrom : (List ℕ → α → β) → ℕ → List (Rose α) → List (Rose β)
  | _, _, [] => []
  | f, i, c :: cs => mapPlaces (fun place => f (i :: place)) c :: mapPlacesFrom f (i + 1) cs

end

theorem mapPlacesFrom_eq (f : List ℕ → α → β) (i : ℕ) (cs : List (Rose α)) :
    mapPlacesFrom f i cs = cs.mapIdx fun j c => mapPlaces (fun place => f ((i + j) :: place)) c := by
  induction cs generalizing i with
  | nil => rw [mapPlacesFrom, List.mapIdx_nil]
  | cons c cs ih =>
    rw [mapPlacesFrom, ih, List.mapIdx_cons]
    simp only [Nat.add_zero, Nat.add_assoc, Nat.add_comm 1]

theorem mapPlaces_node (f : List ℕ → α → β) (a : α) (cs : List (Rose α)) :
    mapPlaces f (node a cs) =
      node (f [] a) (cs.mapIdx fun i c => mapPlaces (fun place => f (i :: place)) c) := by
  rw [mapPlaces, mapPlacesFrom_eq]
  simp only [Nat.zero_add]

theorem value_mapPlaces (f : List ℕ → α → β) (t : Rose α) :
    (t.mapPlaces f).value = f [] t.value := by
  obtain ⟨a, cs⟩ := t
  rw [mapPlaces_node, value_node, value_node]

/-- Two changes make the same of a tree if and only if they do so at every place. -/
theorem mapPlaces_eq_iff {f g : List ℕ → α → β} {t : Rose α} :
    t.mapPlaces f = t.mapPlaces g ↔
      ∀ place u, t.subtree place = some u → f place u.value = g place u.value := by
  induction t using induction generalizing f g with
  | h a cs ih =>
    rw [mapPlaces_node, mapPlaces_node, node.injEq, List.mapIdx_eq_mapIdx_iff]
    constructor
    · rintro ⟨hvalue, hchildren⟩ place u hu
      cases place with
      | nil =>
        obtain rfl := Option.some.inj hu
        exact hvalue
      | cons i place =>
        rw [subtree_node_cons, Option.bind_eq_some_iff] at hu
        obtain ⟨c, hc, hu⟩ := hu
        obtain ⟨hi, rfl⟩ := List.getElem?_eq_some_iff.mp hc
        exact (ih _ (List.getElem_mem hi)).mp (hchildren i hi) place u hu
    · intro h
      refine ⟨h [] _ rfl, fun i hi => (ih _ (List.getElem_mem hi)).mpr fun place u hu => ?_⟩
      refine h (i :: place) u ?_
      rw [subtree_node_cons, List.getElem?_eq_getElem hi]
      exact hu

theorem subtree_mapPlaces (f : List ℕ → α → β) (place : List ℕ) (t : Rose α) :
    subtree place (t.mapPlaces f) =
      (subtree place t).map (mapPlaces fun below => f (place ++ below)) := by
  induction place generalizing t f with
  | nil => rfl
  | cons i place ih =>
    obtain ⟨a, cs⟩ := t
    rw [mapPlaces_node, subtree_node_cons, subtree_node_cons, List.getElem?_mapIdx]
    cases cs[i]? with
    | none => rfl
    | some c => exact ih _ c

/-- Two changes, one after the other. -/
theorem mapPlaces_mapPlaces {γ : Type*} (f : List ℕ → α → β) (g : List ℕ → β → γ) (t : Rose α) :
    (t.mapPlaces f).mapPlaces g = t.mapPlaces fun place a => g place (f place a) := by
  induction t using induction generalizing f g with
  | h a cs ih =>
    rw [mapPlaces_node, mapPlaces_node, mapPlaces_node, List.mapIdx_mapIdx]
    refine congrArg _ (List.mapIdx_eq_mapIdx_iff.mpr fun i hi => ?_)
    exact ih _ (List.getElem_mem hi) _ _

/-- A change that is the same at all places. -/
theorem mapPlaces_const (f : α → β) (t : Rose α) : (t.mapPlaces fun _ => f) = t.map f := by
  induction t using induction with
  | h a cs ih =>
    rw [mapPlaces_node, map_node]
    refine congrArg _ (List.ext_getElem? fun i => ?_)
    rw [List.getElem?_mapIdx, List.getElem?_map]
    cases hc : cs[i]? with
    | none => rfl
    | some c => exact congrArg some (ih c (List.mem_of_getElem? hc))

end Rose

end Aetheris
