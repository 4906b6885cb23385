/-
  The order in which a search with a first-in first-out queue visits a uniform tree.

  `Fifo kids q vs` is the search itself, over any relation `kids` between a node and the list of its
  children: from the queue `q` it takes the nodes `vs`, in this order, where each node taken puts
  its children at the end of the queue.  Nothing in it mentions levels.

  1. **Levels** — `level e t` lists the labels `e` levels below the root of `t`, left to right;
     `levels t` lists all levels.  They are a rearrangement of the labels (`levels_perm`).
  2. **The crux** (`fifo_level`) — while one level is taken off the queue, the next one builds up
     behind it, in order.  So a queue that holds a level is followed by what a queue that holds the
     next level is followed by.
  3. **Level order** (`fifo_levels`) — by induction on the height, the search from the root takes
     the levels one after the other.

  The induction is on the height of a FOREST whose roots are in the queue, since the children of a
  level are no tree: a tree is the forest of one.
-/
import Mqlog.Lib.UniformTree

namespace Mqlog.Lib

/-! ## The search -/

/-- From the queue in front, the search takes the nodes behind, in this order. -/
inductive Fifo (kids : Nat → List Nat → Prop) : List Nat → List Nat → Prop where
  | nil : Fifo kids [] []
  | cons {x : Nat} {ks q vs : List Nat} : kids x ks → Fifo kids (q ++ ks) vs →
      Fifo kids (x :: q) (x :: vs)

/-- Everything in the queue is taken. -/
theorem Fifo.length_le {kids : Nat → List Nat → Prop} {q vs : List Nat} (h : Fifo kids q vs) :
    q.length ≤ vs.length := by
  induction h with
  | nil => exact Nat.le_refl 0
  | cons _ _ ih =>
    rw [List.length_append] at ih
    rw [List.length_cons, List.length_cons]
    omega

/-! ## Levels -/

namespace UTree

variable {L : Type} {d : Nat} {kids : Nat → List Nat → Prop}

/-- The labels `e` levels below the root, from left to right. -/
def level : {d : Nat} → Nat → UTree L d → List Nat
  | _, 0, t => [label t]
  | 0, _ + 1, _ => []
  | _ + 1, e + 1, t => (children t).flatMap (level e)

/-- All levels, from the root down. -/
def levels {d : Nat} (t : UTree L d) : List (List Nat) :=
  (List.range (d + 1)).map fun e => level e t

@[simp] theorem level_zero {d : Nat} (t : UTree L d) : level 0 t = [label t] := by
  cases d <;> rfl

/-- The labels one level further down are those of the children. -/
theorem level_succ (e : Nat) (t : UTree L (d + 1)) :
    level (e + 1) t = (children t).flatMap (level e) := rfl

/-- There is nothing below the leaves. -/
theorem level_of_lt : {d : Nat} → (e : Nat) → (t : UTree L d) → d < e → level e t = []
  | _, 0, _, h => absurd h (Nat.not_lt_zero _)
  | 0, _ + 1, _, _ => rfl
  | d + 1, e + 1, t, h => by
    rw [level_succ, List.flatMap_eq_nil_iff]
    exact fun c _ => level_of_lt e c (Nat.lt_of_succ_lt_succ h)

/-- The levels, looked up by their distance from the root. -/
theorem levels_getD (t : UTree L d) (e : Nat) : (levels t).getD e [] = level e t := by
  rw [levels, List.getD_eq_getElem?_getD, List.getElem?_map]
  rcases Nat.lt_or_ge e (d + 1) with hlt | hge
  · rw [List.getElem?_range hlt]
    rfl
  · rw [List.getElem?_eq_none (by rw [List.length_range]; exact hge), level_of_lt e t hge]
    rfl

/-- A level of a node is made of the same level of its children. -/
theorem flatMap_level_succ (e : Nat) (cs : List (UTree L (d + 1))) :
    cs.flatMap (level (e + 1)) = (cs.flatMap children).flatMap (level e) :=
  (List.flatMap_assoc (l := cs) (f := children) (g := level e)).symm

/-- The first level of a forest. -/
theorem flatMap_level_zero (cs : List (UTree L d)) : cs.flatMap (level 0) = cs.map label := by
  induction cs with
  | nil => rfl
  | cons c cs ih => rw [List.flatMap_cons, level_zero, ih, List.map_cons, List.singleton_append]

/-- The levels of a forest, one after the other: the first is that of the roots. -/
theorem flatMap_levels_succ (cs : List (UTree L (d + 1))) :
    (List.range (d + 2)).flatMap (fun e => cs.flatMap (level e)) =
      cs.map label ++
        (List.range (d + 1)).flatMap fun e => (cs.flatMap children).flatMap (level e) := by
  rw [List.range_succ_eq_map, List.flatMap_cons, flatMap_level_zero, List.flatMap_map]
  simp only [Nat.succ_eq_add_one, flatMap_level_succ]

/-- All levels of a tree, as those of a forest of one. -/
theorem levels_flatten (t : UTree L d) :
    (levels t).flatten = (List.range (d + 1)).flatMap fun e => [t].flatMap (level e) := by
  simp only [levels, List.flatMap, List.map_cons, List.map_nil, List.flatten_cons, List.flatten_nil,
    List.append_nil]

/-- The labels of a forest, level by level. -/
theorem levels_perm_forest : {d : Nat} → (cs : List (UTree L d)) →
    ((List.range (d + 1)).flatMap fun e => cs.flatMap (level e)).Perm (cs.flatMap labels)
  | 0, cs => by
    rw [List.range_one, List.flatMap_singleton, flatMap_level_zero, List.map_eq_flatMap]
    rfl
  | d + 1, cs => by
    rw [flatMap_levels_succ]
    refine (List.Perm.append_left _ (levels_perm_forest (cs.flatMap children))).trans ?_
    -- the roots come first here, and in front of their own children there
    induction cs with
    | nil => exact List.Perm.refl _
    | cons c cs ih =>
      rw [List.map_cons, List.flatMap_cons, List.flatMap_append, List.flatMap_cons,
        List.cons_append]
      refine List.Perm.cons _ ?_
      rw [← List.append_assoc]
      refine (List.perm_append_comm.append_right _).trans ?_
      rw [List.append_assoc]
      exact ih.append_left _

/-- **The levels hold every label**, as often as the tree has it. -/
theorem levels_perm (t : UTree L d) : (levels t).flatten.Perm (labels t) := by
  rw [levels_flatten]
  refine (levels_perm_forest [t]).trans ?_
  rw [List.flatMap_singleton]

/-! ## Level order -/

/-- `kids` gives each node of the tree the labels of its children. -/
def Offspring (kids : Nat → List Nat → Prop) : {d : Nat} → UTree L d → Prop
  | 0, t => kids (label t) []
  | _ + 1, t => kids (label t) ((children t).map label) ∧ ∀ c ∈ children t, Offspring kids c

/-- **One level**: while the trees `cs` are taken off the queue, their children gather behind
    `acc`. -/
theorem fifo_level {vs : List Nat} : (cs : List (UTree L (d + 1))) → (acc : List Nat) →
    (∀ c ∈ cs, Offspring kids c) → Fifo kids (acc ++ (cs.flatMap children).map label) vs →
    Fifo kids (cs.map label ++ acc) (cs.map label ++ vs)
  | [], acc, _, h => by
    rw [List.flatMap_nil, List.map_nil, List.append_nil] at h
    exact h
  | c :: cs, acc, hcs, h => by
    rw [List.flatMap_cons, List.map_append, ← List.append_assoc] at h
    have ih := fifo_level cs (acc ++ (children c).map label)
      (fun c' hc' => hcs c' (List.mem_cons_of_mem c hc')) h
    rw [← List.append_assoc] at ih
    exact Fifo.cons (hcs c List.mem_cons_self).1 ih

/-- The leaves end the search. -/
theorem fifo_leaves : (cs : List (UTree L 0)) → (∀ c ∈ cs, Offspring kids c) →
    Fifo kids (cs.map label) (cs.map label)
  | [], _ => Fifo.nil
  | c :: cs, hcs => by
    refine Fifo.cons (hcs c List.mem_cons_self) ?_
    rw [List.append_nil]
    exact fifo_leaves cs fun c' hc' => hcs c' (List.mem_cons_of_mem c hc')

/-- A queue of the roots of a forest is worked off in level order. -/
theorem fifo_forest : {d : Nat} → (cs : List (UTree L d)) → (∀ c ∈ cs, Offspring kids c) →
    Fifo kids (cs.map label) ((List.range (d + 1)).flatMap fun e => cs.flatMap (level e))
  | 0, cs, hcs => by
    rw [List.range_one, List.flatMap_singleton, flatMap_level_zero]
    exact fifo_leaves cs hcs
  | d + 1, cs, hcs => by
    have hkids : ∀ c ∈ cs.flatMap children, Offspring kids c := by
      intro c hc
      obtain ⟨p, hp, hcp⟩ := List.mem_flatMap.mp hc
      exact (hcs p hp).2 c hcp
    have hbelow := fifo_forest (cs.flatMap children) hkids
    have hlevel := fifo_level cs [] hcs hbelow
    rw [List.append_nil] at hlevel
    rw [flatMap_levels_succ]
    exact hlevel

/-- **The search takes the tree level by level**, each from left to right. -/
theorem fifo_levels {t : UTree L d} (ht : Offspring kids t) :
    Fifo kids [label t] (levels t).flatten := by
  rw [levels_flatten]
  refine fifo_forest [t] fun c hc => ?_
  rw [List.mem_singleton.mp hc]
  exact ht

end UTree
end Mqlog.Lib
