import Mathlib.Data.Finset.Card

/-!
# Forests and their traversal

A relation is a forest when a node has one parent at most and a rank grows from parent to child.
Two nodes above a third are then above one another.  Cutting the edges into one node splits what
is below a root into the nodes below that node and the others.

`traverse` is the loop that walks a forest with a stack.  The values on the stack stand for nodes
by a `key`, as references into a table do.
-/

namespace Loki.Foundation

open Relation List ReflTransGen

structure Forest {α : Type} (edge : α → α → Prop) (rank : α → Nat) : Prop where
  unique : ∀ {p q c}, edge p c → edge q c → p = q
  rank_lt : ∀ {p c}, edge p c → rank p < rank c

/-- The edges that do not enter `stop`. -/
def Avoiding {α : Type} (edge : α → α → Prop) (stop p c : α) : Prop := edge p c ∧ c ≠ stop

namespace Forest

variable {α : Type} {edge : α → α → Prop} {rank : α → Nat} {a b x root stop : α}

section

variable (h : Forest edge rank)

include h

theorem rank_le (hab : ReflTransGen edge a b) : rank a ≤ rank b := by
  induction hab with
  | refl => exact le_rfl
  | tail _ hedge ih => exact ih.trans (h.rank_lt hedge).le

theorem eq_of_rank_le (hab : ReflTransGen edge a b) (hrank : rank b ≤ rank a) : a = b := by
  rcases hab.cases_tail with heq | ⟨c, hac, hedge⟩
  · exact heq.symm
  · have hle := h.rank_le hac
    have hlt := h.rank_lt hedge
    omega

theorem total (ha : ReflTransGen edge a x) (hb : ReflTransGen edge b x) :
    ReflTransGen edge a b ∨ ReflTransGen edge b a := by
  have hunique : Relator.RightUnique (Function.swap edge) := fun _ _ _ => h.unique
  rcases total_of_right_unique hunique ha.swap hb.swap with hab | hba
  · exact .inr (reflTransGen_swap.mp hab)
  · exact .inl (reflTransGen_swap.mp hba)

theorem reach_of_rank_le (ha : ReflTransGen edge a x)
    (hb : ReflTransGen edge b x) (hrank : rank a ≤ rank b) : ReflTransGen edge a b := by
  rcases h.total ha hb with hab | hba
  · exact hab
  · rw [h.eq_of_rank_le hba hrank]

end

theorem avoiding_or_reach (hx : ReflTransGen edge root x) :
    ReflTransGen (Avoiding edge stop) root x ∨ ReflTransGen edge stop x := by
  induction hx with
  | refl => exact .inl .refl
  | @tail _ z _ hedge ih =>
    rcases ih with ih | ih
    · by_cases hz : z = stop
      · exact .inr (hz ▸ .refl)
      · exact .inl (ih.tail ⟨hedge, hz⟩)
    · exact .inr (ih.tail hedge)

theorem not_avoiding_of_reach (h : Forest edge rank) (hroot : ReflTransGen edge root stop)
    (hne : root ≠ stop) (hx : ReflTransGen edge stop x) :
    ¬ReflTransGen (Avoiding edge stop) root x := by
  induction hx with
  | refl =>
    intro havoid
    rcases havoid.cases_tail with heq | ⟨_, _, hlast⟩
    · exact hne heq.symm
    · exact hlast.2 rfl
  | @tail _ _ hy hedge ih =>
    intro havoid
    rcases havoid.cases_tail with heq | ⟨p, hp, hlast⟩
    · -- the node below `stop` cannot be the root again
      have hle := h.rank_le hroot
      have hle' := h.rank_le hy
      have hlt := h.rank_lt hedge
      rw [heq] at hlt
      omega
    · rw [h.unique hlast.1 hedge] at hp
      exact ih hp

theorem reach_of_avoiding (h : ReflTransGen (Avoiding edge stop) a b) : ReflTransGen edge a b :=
  mono (fun _ _ hedge => hedge.1) _ _ h

theorem avoiding (h : Forest edge rank) : Forest (Avoiding edge stop) rank :=
  ⟨fun hp hq => h.unique hp.1 hq.1, fun hp => h.rank_lt hp.1⟩

end Forest

theorem reach_addLeaf_iff {α edge edge'} {parent leaf a x : α}
    (hedge : ∀ p c, edge' p c ↔ edge p c ∨ p = parent ∧ c = leaf) (hleaf : ∀ c, ¬edge leaf c)
    (hne : leaf ≠ parent) :
    ReflTransGen edge' a x ↔ ReflTransGen edge a x ∨ x = leaf ∧ ReflTransGen edge a parent := by
  constructor
  · intro h
    induction h with
    | refl => exact .inl .refl
    | @tail y z _ hyz ih =>
      rcases ih with ih | ⟨rfl, ih⟩
      · rcases (hedge y z).mp hyz with hyz | ⟨rfl, rfl⟩
        · exact .inl (ih.tail hyz)
        · exact .inr ⟨rfl, ih⟩
      · rcases (hedge _ z).mp hyz with hyz | ⟨hparent, -⟩
        · exact absurd hyz (hleaf z)
        · exact absurd hparent hne
  · have hmono : ∀ {b}, ReflTransGen edge a b → ReflTransGen edge' a b :=
      fun h => mono (fun p c hpc => (hedge p c).mpr (.inl hpc)) _ _ h
    rintro (h | ⟨rfl, h⟩)
    · exact hmono h
    · exact (hmono h).tail ((hedge _ _).mpr (.inr ⟨rfl, rfl⟩))

/-! ## Traversal -/

/-- Pop a value, push what `expand` gives for it, and note it as visited.  The last value that is
pushed is the first to be popped.  Without fuel the loop is `stuck`. -/
def traverse {β ε : Type} (expand : β → Except ε (List β)) (stuck : ε) :
    Nat → List β → List β → Except ε (List β)
  | _, [], visited => .ok visited
  | 0, _ :: _, _ => .error stuck
  | fuel + 1, x :: stack, visited =>
    match expand x with
    | .error e => .error e
    | .ok next => traverse expand stuck fuel (next.reverse ++ stack) (visited ++ [x])

/-- `expand` succeeds, with values for the children of the node. -/
structure Expands {α β ε : Type} (expand : β → Except ε (List β)) (key : β → α)
    (edge : α → α → Prop) (Valid : β → Prop) (x : β) (next : List β) : Prop where
  eq_ok : expand x = .ok next
  valid : ∀ y ∈ next, Valid y
  nodup : (next.map key).Nodup
  mem_iff : ∀ c, c ∈ next.map key ↔ edge (key x) c

/-- The invariant of the loop: what is on the stack or visited are different nodes below the root,
each but the root has a visited parent, and all children of visited nodes are among them. -/
structure Traversing {α β : Type} (key : β → α) (edge : α → α → Prop) (Valid : β → Prop)
    (root : α) (stack visited : List β) : Prop where
  valid : ∀ x ∈ stack, Valid x
  nodup : (stack.map key ++ visited.map key).Nodup
  reached : ∀ x ∈ stack.map key ++ visited.map key, ReflTransGen edge root x
  parent : ∀ x ∈ stack.map key ++ visited.map key, x = root ∨ ∃ p ∈ visited.map key, edge p x
  closed : ∀ p ∈ visited.map key, ∀ c, edge p c → c ∈ stack.map key ++ visited.map key
  root_mem : root ∈ stack.map key ++ visited.map key
  ordered : (visited.map key).Pairwise fun x y => ¬edge y x

namespace Traversing

variable {α β ε : Type} {key : β → α} {edge : α → α → Prop} {rank : α → Nat} {Valid : β → Prop}
  {root : α} {stack visited : List β} {x : β} {expand : β → Except ε (List β)} {next : List β}

theorem start (hx : Valid x) : Traversing key edge Valid (key x) [x] [] where
  valid := by simpa using hx
  nodup := by simp
  reached := by
    intro y hy
    have heq : y = key x := by simpa using hy
    rw [heq]
  parent := by
    intro y hy
    exact .inl (by simpa using hy)
  closed := by simp
  root_mem := by simp
  ordered := .nil

section

variable (h : Traversing key edge Valid root (x :: stack) visited) (hf : Forest edge rank)

include h hf

theorem fresh {c} (hc : edge (key x) c) : c ∉ (x :: stack).map key ++ visited.map key := by
  intro hmem
  have hx : key x ∉ visited.map key := by
    have hnodup := h.nodup
    simp only [map_cons, cons_append, nodup_cons, mem_append, not_or] at hnodup
    exact hnodup.1.2
  rcases h.parent c hmem with rfl | ⟨p, hp, hedge⟩
  · have hle := hf.rank_le (h.reached (key x) (by simp))
    have hlt := hf.rank_lt hc
    omega
  · rw [hf.unique hedge hc] at hp
    exact hx hp

theorem step (hnext : Expands expand key edge Valid x next) :
    Traversing key edge Valid root (next.reverse ++ stack) (visited ++ [x]) := by
  have hmem : ∀ y, y ∈ (next.reverse ++ stack).map key ++ (visited ++ [x]).map key ↔
      edge (key x) y ∨ y ∈ (x :: stack).map key ++ visited.map key := by
    intro y
    rw [← hnext.mem_iff]
    simp only [map_append, map_reverse, mem_append, mem_reverse, map_cons,
      map_nil, mem_cons, not_mem_nil, or_false]
    tauto
  refine ⟨?_, ?_, ?_, ?_, ?_, ?_, ?_⟩
  · intro y hy
    rcases mem_append.mp hy with hy | hy
    · exact hnext.valid y (mem_reverse.mp hy)
    · exact h.valid y (mem_cons_of_mem _ hy)
  · have hperm : ((next.reverse ++ stack).map key ++ (visited ++ [x]).map key).Perm
        (next.map key ++ ((x :: stack).map key ++ visited.map key)) := by
      simp only [map_append, map_reverse, append_assoc, map_cons, map_nil, cons_append]
      refine (reverse_perm _).append ?_
      rw [← append_assoc]
      exact perm_append_singleton _ _
    refine hperm.nodup_iff.mpr (hnext.nodup.append h.nodup ?_)
    intro c hc
    exact h.fresh hf ((hnext.mem_iff c).mp hc)
  · intro y hy
    rcases (hmem y).mp hy with hedge | hold
    · exact (h.reached (key x) (by simp)).tail hedge
    · exact h.reached y hold
  · intro y hy
    rcases (hmem y).mp hy with hedge | hold
    · exact .inr ⟨key x, by simp, hedge⟩
    · refine (h.parent y hold).imp id ?_
      rintro ⟨p, hp, hedge⟩
      exact ⟨p, by simp [hp], hedge⟩
  · intro p hp c hedge
    rw [hmem]
    have hcases : p ∈ visited.map key ∨ p = key x := by simpa using hp
    rcases hcases with hp | rfl
    · exact .inr (h.closed p hp c hedge)
    · exact .inl hedge
  · exact (hmem root).mpr (.inr h.root_mem)
  · rw [map_append]
    refine pairwise_append.mpr ⟨h.ordered, by simp, ?_⟩
    intro y hy z hz hedge
    obtain rfl : z = key x := by simpa using hz
    exact h.fresh hf hedge (mem_append_right _ hy)

end

end Traversing

theorem traverse_forest {α β ε key edge rank Valid expand} (stuck : ε) [DecidableEq α] {x : β}
    (hf : Forest edge rank) (hx : Valid x)
    (hexpand : ∀ y, Valid y → ReflTransGen edge (key x) (key y) →
      ∃ next, Expands expand key edge Valid y next)
    (nodes : Finset α) (hnodes : ∀ y, ReflTransGen edge (key x) y → y ∈ nodes) (fuel : Nat)
    (hfuel : nodes.card ≤ fuel) :
    ∃ visited, traverse expand stuck fuel [x] [] = .ok visited ∧ (visited.map key).Nodup ∧
      (∀ y, y ∈ visited.map key ↔ ReflTransGen edge (key x) y) ∧
      (visited.map key).Pairwise fun y z => ¬edge z y := by
  suffices hloop : ∀ fuel stack visited,
      Traversing key edge Valid (key x) stack visited → nodes.card ≤ fuel + visited.length →
      ∃ result, traverse expand stuck fuel stack visited = .ok result ∧
        Traversing key edge Valid (key x) [] result by
    obtain ⟨result, hresult, h⟩ := hloop fuel [x] [] (.start hx) (by simpa using hfuel)
    refine ⟨result, hresult, by simpa using h.nodup, fun y => ⟨fun hy => ?_, fun hy => ?_⟩,
      h.ordered⟩
    · exact h.reached y (by simpa using hy)
    · induction hy with
      | refl => simpa using h.root_mem
      | tail _ hedge ih => simpa using h.closed _ ih _ hedge
  intro fuel
  induction fuel with
  | zero =>
    intro stack visited h hfuel
    cases stack with
    | nil => exact ⟨visited, rfl, h⟩
    | cons y stack =>
      -- all nodes are visited, so there is none left to pop
      have hsub : ((y :: stack).map key ++ visited.map key).toFinset ⊆ nodes := by
        intro z hz
        exact hnodes z (h.reached z (mem_toFinset.mp hz))
      have hcard := Finset.card_le_card hsub
      rw [toFinset_card_of_nodup h.nodup] at hcard
      simp only [length_append, length_map, length_cons] at hcard
      omega
  | succ _ ih =>
    intro stack visited h _
    cases stack with
    | nil => exact ⟨visited, rfl, h⟩
    | cons y =>
      obtain ⟨_, hnext⟩ := hexpand y (h.valid y mem_cons_self) (h.reached (key y) (by simp))
      obtain ⟨result, hresult, hdone⟩ := ih _ _ (h.step hf hnext) (by
        simp only [length_append, length_singleton]
        omega)
      refine ⟨result, ?_, hdone⟩
      simp only [traverse, hnext.eq_ok]
      exact hresult

end Loki.Foundation
