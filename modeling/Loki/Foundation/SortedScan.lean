import Std.Data.ExtTreeMap.Lemmas

/-!
# Scans of ordered maps

A scan is the list of the entries of a map whose keys are in a range, in the order of the keys.
The map is given by its lookup function, so that a scan can be of a map that is nowhere stored.
-/

namespace Loki.Foundation

open List Std.ExtTreeMap Std.ReflOrd

variable {α β : Type} [Ord α] {lookup : α → Option β} {range : α → Prop} {l l' : List (α × β)}

abbrev Ascending (entries : List (α × β)) : Prop :=
  entries.Pairwise fun a b => compare a.1 b.1 = .lt

structure IsScan (lookup : α → Option β) (range : α → Prop) (entries : List (α × β)) : Prop where
  ascending : Ascending entries
  mem_iff : ∀ k v, (k, v) ∈ entries ↔ range k ∧ lookup k = some v

theorem IsScan.congr {lookup' range'} (h : IsScan lookup range l)
    (hiff : ∀ k v, range k ∧ lookup k = some v ↔ range' k ∧ lookup' k = some v) :
    IsScan lookup' range' l where
  ascending := h.ascending
  mem_iff := fun k v => (h.mem_iff k v).trans (hiff k v)

variable [Std.TransOrd α]

theorem Ascending.nodup {entries : List (α × β)} (h : Ascending entries) : entries.Nodup :=
  h.imp fun hlt heq => by
    rw [heq, compare_self] at hlt
    cases hlt

/-- Entries with ascending keys are determined by which entries they are. -/
theorem Ascending.eq_of_mem_iff (h : Ascending l) (h' : Ascending l')
    (hmem : ∀ entry, entry ∈ l ↔ entry ∈ l') : l = l' := by
  refine ((perm_ext_iff_of_nodup h.nodup h'.nodup).mpr hmem).eq_of_pairwise ?_ h h'
  intro a b _ _ hlt hlt'
  have hself := Std.TransCmp.lt_trans hlt hlt'
  rw [compare_self] at hself
  cases hself

theorem IsScan.unique (h : IsScan lookup range l) (h' : IsScan lookup range l') : l = l' :=
  h.ascending.eq_of_mem_iff h'.ascending fun entry =>
    (h.mem_iff entry.1 entry.2).trans (h'.mem_iff entry.1 entry.2).symm

theorem isScan_toList [Std.LawfulEqOrd α] (m : Std.ExtTreeMap α β) (p : α → Bool) :
    IsScan (m[·]?) (p · = true) (m.toList.filter (p ·.1)) where
  ascending := (ordered_keys_toList).filter _
  mem_iff := fun k v => by
    rw [mem_filter, mem_toList_iff_getElem?_eq_some, and_comm]

/-- The segment between two positions that are found by searching for the first entry at which a
property ends. -/
theorem drop_take_eq_filter {γ p q} {l : List γ}
    (hp : l.Pairwise fun a b => p b = true → p a = true)
    (hq : l.Pairwise fun a b => q b = true → q a = true) :
    (l.take (l.takeWhile p).length).drop (l.takeWhile q).length =
      l.filter fun x => p x && !q x := by
  induction l with
  | nil => rfl
  | cons x l ih =>
    rw [pairwise_cons] at hp hq
    have hrest := ih hp.2 hq.2
    cases hpx : p x with
    | false =>
      have hnone : ∀ y ∈ l, p y = false := fun y hy =>
        Bool.eq_false_iff.mpr fun h => Bool.false_ne_true (hpx ▸ hp.1 y hy h)
      have hfirst : (x :: l).takeWhile p = [] := takeWhile_cons_of_neg (by simp [hpx])
      rw [hfirst, length_nil, take_zero, drop_nil, filter_cons_of_neg (by simp [hpx])]
      exact (filter_eq_nil_iff.mpr fun y hy => by simp [hnone y hy]).symm
    | true =>
      rw [takeWhile_cons_of_pos hpx, length_cons, take_succ_cons]
      cases hqx : q x with
      | true =>
        rw [takeWhile_cons_of_pos hqx, length_cons, drop_succ_cons, hrest,
          filter_cons_of_neg (by simp [hqx])]
      | false =>
        have hstart : l.takeWhile q = [] := by
          cases l with
          | nil => rfl
          | cons y =>
            refine takeWhile_cons_of_neg fun hy => ?_
            exact Bool.false_ne_true (hqx ▸ hq.1 y (mem_cons_self ..) hy)
        rw [hstart, length_nil, drop_zero] at hrest
        rw [takeWhile_cons_of_neg (by simp [hqx]), length_nil, drop_zero,
          hrest, filter_cons_of_pos (by simp [hpx, hqx])]

end Loki.Foundation
