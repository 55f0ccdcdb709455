import Mathlib.Data.List.Perm.Subperm

/-!
# Depth-first search for a back edge

`visit` colours the vertices that can be reached from one vertex: a vertex is grey while its
successors are examined and black afterwards.  An edge into a grey vertex is a back edge.  The
search stops when it has found one.

Without a back edge the vertices turn black after all their successors.  So the search finds a
back edge exactly when a cycle can be reached.
-/

namespace Loki.Foundation

open Relation List

variable {α : Type}

structure Search (α : Type) where
  grey : List α
  black : List α
  backEdge : Bool

namespace Search

def empty : Search α where
  grey := []
  black := []
  backEdge := false

def examine [DecidableEq α] (visit : α → Search α → Search α) (st : Search α) (v : α) : Search α :=
  if v ∈ st.grey then { st with backEdge := true }
  else if v ∈ st.black then st
  else visit v st

/-- `fuel` bounds the depth of the search. -/
def visit [DecidableEq α] (succ : α → List α) : Nat → α → Search α → Search α
  | 0, _, st => st
  | fuel + 1, u, st =>
    let successors := if st.backEdge then [] else succ u
    let st' := successors.foldl (examine (visit succ fuel)) { st with grey := u :: st.grey }
    { st' with grey := st.grey, black := u :: st'.black }

/-! ## The colours after a search without a back edge -/

def Ordered (succ : α → List α) : List α → Prop
  | [] => True
  | v :: vs => (∀ w ∈ succ v, w ∈ vs) ∧ Ordered succ vs

variable {succ : α → List α} {vertices : List α}

theorem Ordered.not_of_forall_exists {vs : List α} {P : α → Prop} (h : Ordered succ vs)
    (hP : ∀ v, P v → ∃ w ∈ succ v, P w) : ∀ v ∈ vs, ¬ P v := by
  induction vs with
  | nil => simp
  | cons _ _ ih =>
    have hus := ih h.2
    intro v hv hPv
    rcases mem_cons.mp hv with rfl | hv
    · obtain ⟨w, hw, hPw⟩ := hP v hPv
      exact hus w (h.1 w hw) hPw
    · exact hus v hv hPv

/-- What a part of the search adds: it keeps the grey vertices, and without a back edge it
blackens `vs` and keeps the order. -/
structure Blackens (succ : α → List α) (vs : List α) (st st' : Search α) : Prop where
  grey : st'.grey = st.grey
  found : st.backEdge = true → st'.backEdge = true
  black : st.black ⊆ st'.black
  blackened : st'.backEdge = false → vs ⊆ st'.black
  ordered : st'.backEdge = false → Ordered succ st.black → Ordered succ st'.black

namespace Blackens

variable {succ : α → List α} {vs : List α} {st st₁ st₂ : Search α} {v : α}

theorem refl (h : v ∈ st.black) : Blackens succ [v] st st where
  grey := rfl
  found := id
  black := Subset.refl _
  blackened := by simp [h]
  ordered _ := id

theorem trans (h₁ : Blackens succ [v] st st₁) (h₂ : Blackens succ vs st₁ st₂) :
    Blackens succ (v :: vs) st st₂ := by
  have hfalse : st₂.backEdge = false → st₁.backEdge = false := by
    intro hnone
    by_contra hfound
    have := h₂.found (by simpa using hfound)
    simp_all
  constructor
  case grey => rw [h₂.grey, h₁.grey]
  case found => exact h₂.found ∘ h₁.found
  case black => exact Subset.trans h₁.black h₂.black
  case blackened =>
    intro hnone
    have hv := h₁.blackened (hfalse hnone) (mem_singleton_self v)
    exact cons_subset.mpr ⟨h₂.black hv, h₂.blackened hnone⟩
  case ordered =>
    intro hnone hordered
    exact h₂.ordered hnone (h₁.ordered (hfalse hnone) hordered)

end Blackens

theorem blackens_foldl [DecidableEq α] {visit : α → Search α → Search α} {grey vs : List α}
    (hvisit : ∀ v ∈ vs, ∀ st, st.grey = grey → v ∉ grey →
      Blackens succ [v] st (visit v st)) (st : Search α) (hst : st.grey = grey) :
    Blackens succ vs st (vs.foldl (examine visit) st) := by
  induction vs generalizing st with
  | nil =>
    constructor
    case ordered => exact fun _ => id
    all_goals simp
  | cons v _ ih =>
    have hstep : Blackens succ [v] st (examine visit st v) := by
      unfold examine
      split
      · constructor
        all_goals simp
      split
      · exact .refl ‹_›
      · exact hvisit v mem_cons_self st hst (hst ▸ ‹v ∉ st.grey›)
    refine hstep.trans (ih ?_ _ (hstep.grey.trans hst))
    intro w hw
    exact hvisit w (mem_cons_of_mem v hw)

theorem length_lt_of_notMem {grey : List α} {u : α} (hnodup : grey.Nodup) (hsub : grey ⊆ vertices)
    (hu : u ∈ vertices) (hgrey : u ∉ grey) : grey.length < vertices.length :=
  (subperm_of_subset (nodup_cons.mpr ⟨hgrey, hnodup⟩)
    (cons_subset.mpr ⟨hu, hsub⟩)).length_le

theorem blackens_visit [DecidableEq α] (hclosed : ∀ v ∈ vertices, succ v ⊆ vertices) (fuel : Nat)
    (u : α) (st : Search α) (hnodup : st.grey.Nodup) (hsub : st.grey ⊆ vertices) (hu : u ∈ vertices)
    (hgrey : u ∉ st.grey) (hfuel : vertices.length ≤ fuel + st.grey.length) :
    Blackens succ [u] st (visit succ fuel u st) := by
  induction fuel generalizing u st with
  | zero =>
    have := length_lt_of_notMem hnodup hsub hu hgrey
    omega
  | succ fuel ih =>
    have hvisit : ∀ v ∈ (if st.backEdge then [] else succ u), ∀ st',
        st'.grey = u :: st.grey → v ∉ u :: st.grey →
        Blackens succ [v] st' (visit succ fuel v st') := by
      intro v hv st' hst' _
      have hv : v ∈ succ u := by
        split at hv
        · simp at hv
        · exact hv
      apply ih v st'
      · rw [hst']
        exact nodup_cons.mpr ⟨hgrey, hnodup⟩
      · rw [hst']
        exact cons_subset.mpr ⟨hu, hsub⟩
      · exact hclosed u hu hv
      · rwa [hst']
      · rw [hst', length_cons]
        omega
    have hfold := blackens_foldl hvisit { st with grey := u :: st.grey } rfl
    constructor
    case grey => rfl
    case found => exact hfold.found
    case black => exact Subset.trans hfold.black (subset_cons_self _ _)
    case blackened => simp [visit]
    case ordered =>
      intro hnone hordered
      refine ⟨?_, hfold.ordered hnone hordered⟩
      have hfalse : st.backEdge = false := by
        by_contra hfound
        simp_all [visit]
      have hsuccessors : succ u = if st.backEdge then [] else succ u := by simp [hfalse]
      intro w hw
      rw [hsuccessors] at hw
      exact hfold.blackened hnone hw

/-! ## Cycles -/

section Cycles

variable {succ : α → List α} {u : α} {vertices : List α}

/-- A cycle can be reached from `u`. -/
def ReachesCycle (succ : α → List α) (u : α) : Prop :=
  ∃ v, ReflTransGen (fun x y => y ∈ succ x) u v ∧ TransGen (fun x y => y ∈ succ x) v v

theorem ReachesCycle.exists_succ (h : ReachesCycle succ u) : ∃ w ∈ succ u, ReachesCycle succ w := by
  obtain ⟨v, huv, hv⟩ := h
  rcases ReflTransGen.cases_head huv with rfl | ⟨w, hw, hwv⟩
  · obtain ⟨w, hw, hwv⟩ := TransGen.head'_iff.mp hv
    exact ⟨w, hw, u, hwv, hv⟩
  · exact ⟨w, hw, v, hwv, hv⟩

theorem ReachesCycle.of_succ {w : α} (hw : w ∈ succ u) (h : ReachesCycle succ w) :
    ReachesCycle succ u := by
  obtain ⟨v, hwv, hv⟩ := h
  exact ⟨v, .head hw hwv, hv⟩

variable [DecidableEq α]

theorem reachesCycle_of_foldl {visit : α → Search α → Search α} {grey vs : List α}
    (hgrey : ∀ w ∈ grey, ReflTransGen (fun x y => y ∈ succ x) w u) (hvs : vs ⊆ succ u)
    (hkeep : ∀ v ∈ vs, ∀ st, st.grey = grey → v ∉ grey → (visit v st).grey = grey)
    (hvisit : ∀ v ∈ vs, ∀ st, st.grey = grey → v ∉ grey → st.backEdge = false →
      (visit v st).backEdge = true → ReachesCycle succ v) (st : Search α) (hst : st.grey = grey)
    (hnone : st.backEdge = false) (hfound : (vs.foldl (examine visit) st).backEdge = true) :
    ReachesCycle succ u := by
  induction vs generalizing st with
  | nil => simp_all
  | cons v _ ih =>
    have hv : v ∈ succ u := hvs mem_cons_self
    by_cases hback : v ∈ grey
    · exact ⟨u, .refl, TransGen.head' hv (hgrey v hback)⟩
    cases hstep : (examine visit st v).backEdge with
    | true =>
      apply ReachesCycle.of_succ hv
      unfold examine at hstep
      rw [hst, if_neg hback] at hstep
      split at hstep
      · simp_all
      · exact hvisit v mem_cons_self st hst hback hnone hstep
    | false =>
      have hgrey' : (examine visit st v).grey = grey := by
        unfold examine
        rw [hst, if_neg hback]
        split
        · exact hst
        · exact hkeep v mem_cons_self st hst hback
      apply ih (cons_subset.mp hvs).2 _ _ (examine visit st v) hgrey' hstep hfound
      · exact fun w hw => hkeep w (mem_cons_of_mem v hw)
      · exact fun w hw => hvisit w (mem_cons_of_mem v hw)

section

variable (fuel : Nat) (u : α) (st : Search α)

@[simp] theorem visit_grey : (visit succ fuel u st).grey = st.grey := by
  cases fuel <;> rfl

theorem reachesCycle_of_visit (hgrey : ∀ w ∈ st.grey, ReflTransGen (fun x y => y ∈ succ x) w u)
    (hnone : st.backEdge = false) (hfound : (visit succ fuel u st).backEdge = true) :
    ReachesCycle succ u := by
  induction fuel generalizing u st with
  | zero => simp_all [visit]
  | succ _ ih =>
    have hgrey' : ∀ w ∈ u :: st.grey, ReflTransGen (fun x y => y ∈ succ x) w u := by
      intro w hw
      rcases mem_cons.mp hw with rfl | hw
      · exact .refl
      · exact hgrey w hw
    simp only [visit, hnone, Bool.false_eq_true, if_false] at hfound
    apply reachesCycle_of_foldl hgrey' (Subset.refl _) _ _ _ rfl _ hfound
    · intro v _ st' hst' _
      rw [visit_grey, hst']
    · intro v hv st' hst' _ hnone' hfound'
      apply ih v st' _ hnone' hfound'
      intro w hw
      exact (hgrey' w (hst' ▸ hw)).tail hv
    · rfl

end

theorem visit_backEdge_of_endless {P : α → Prop} (hclosed : ∀ v ∈ vertices, succ v ⊆ vertices)
    (hP : ∀ v, P v → ∃ w ∈ succ v, P w) (hu : u ∈ vertices) (hPu : P u) :
    (visit succ vertices.length u .empty).backEdge = true := by
  by_contra hnone
  have hnone := Bool.eq_false_iff.mpr hnone
  have hblackens := blackens_visit hclosed vertices.length u .empty nodup_nil
    (nil_subset _) hu not_mem_nil (Nat.le_add_right _ _)
  have hordered := hblackens.ordered hnone trivial
  have hblack := hblackens.blackened hnone (mem_singleton_self u)
  exact hordered.not_of_forall_exists hP u hblack hPu

theorem visit_backEdge_iff (hclosed : ∀ v ∈ vertices, succ v ⊆ vertices) (hu : u ∈ vertices) :
    (visit succ vertices.length u .empty).backEdge = true ↔ ReachesCycle succ u := by
  constructor
  · exact reachesCycle_of_visit _ u .empty (by simp [empty]) rfl
  · exact visit_backEdge_of_endless hclosed (fun _ => ReachesCycle.exists_succ) hu

end Cycles

end Search

end Loki.Foundation
