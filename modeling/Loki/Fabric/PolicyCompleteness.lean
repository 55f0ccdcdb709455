import Loki.Fabric.Cauthdsl

/-!
# When a signature policy misses no set of signatures

Signatures are consumed in the order of the rules and of the list, and a gate goes on after its
threshold is met.  No choice is regretted when two rules that one signature satisfies are leaves
of the same gate, listed from the more to the less privileged.  The evaluation is compared with any
assignment of the leaves by exchange: what a leaf takes first is replaced in the assignment by what
the assignment had for that leaf.
-/

namespace Loki.Fabric.Cauthdsl

open Loki.Foundation List Nat Function
open Prod (fst snd)

variable {Identity Principal : Type} (msp : IdentityDeserializer Identity Principal)
  (identities : List Principal)

mutual

/-- The indices of the principals in a policy. -/
def signers : SignaturePolicy → List Int
  | .empty => []
  | .untyped => []
  | .signedBy index => [index]
  | .nOutOf _ rules => signersOfRules rules

def signersOfRules : List SignaturePolicy → List Int
  | [] => []
  | rule :: rules => signers rule ++ signersOfRules rules

end

/-- Only leaves compete for signed data, and what satisfies the first satisfies the second. -/
def MorePrivileged (sds : List SignedData) (rule rule' : SignaturePolicy) : Prop :=
  ∀ index ∈ signers rule, ∀ index' ∈ signers rule',
    (∃ sd ∈ sds, Signs msp identities index sd ∧ Signs msp identities index' sd) →
    rule = .signedBy index ∧ rule' = .signedBy index' ∧
      ∀ sd ∈ sds, Signs msp identities index sd → Signs msp identities index' sd

mutual

def ByPrivilege (sds : List SignedData) : SignaturePolicy → Prop
  | .nOutOf _ rules => rules.length < 2 ^ 31 ∧ RulesByPrivilege sds rules
  | _ => True

def RulesByPrivilege (sds : List SignedData) : List SignaturePolicy → Prop
  | [] => True
  | rule :: rules => ByPrivilege sds rule ∧
      (∀ rule' ∈ rules, MorePrivileged msp identities sds rule rule') ∧ RulesByPrivilege sds rules

end

/-- Data that `deduplicate` takes for one identity are of one identity, and equally valid. -/
def ConsistentKeys (sds : List SignedData) : Prop :=
  ∀ sd ∈ sds, ∀ sd' ∈ sds, DifferentKeys msp sd sd' ∨
    (¬ DifferentIdentities msp sd sd' ∧
      ∀ index, Signs msp identities index sd ↔ Signs msp identities index sd')

section

variable {msp identities} {signedData sds : List SignedData} {used : List Bool}
  {assignment : List (Int × Nat)} {envelope : SignaturePolicyEnvelope Principal}

theorem MorePrivileged.mono {rule rule'}
    (h : MorePrivileged msp identities sds rule rule') (hsub : signedData ⊆ sds) :
    MorePrivileged msp identities signedData rule rule' := by
  intro index hindex index' hindex' ⟨sd, hsd, hsigns⟩
  obtain ⟨hrule, hrule', hall⟩ := h index hindex index' hindex' ⟨sd, hsub hsd, hsigns⟩
  exact ⟨hrule, hrule', fun sd hsd => hall sd (hsub hsd)⟩

mutual

theorem ByPrivilege.mono : ∀ {rule}, ByPrivilege msp identities sds rule →
    signedData ⊆ sds → ByPrivilege msp identities signedData rule
  | .empty, _, _ | .untyped, _, _ | .signedBy _, _, _ => trivial
  | .nOutOf _ _, ⟨hlength, h⟩, hsub => ⟨hlength, h.mono hsub⟩

theorem RulesByPrivilege.mono : ∀ {rules},
    RulesByPrivilege msp identities sds rules → signedData ⊆ sds →
    RulesByPrivilege msp identities signedData rules
  | [], _, _ => trivial
  | _ :: _, ⟨hrule, hordered, h⟩, hsub =>
    ⟨hrule.mono hsub, fun rule' hmem => (hordered rule' hmem).mono hsub, h.mono hsub⟩

end

/-! ## Leaves and their rules -/

mutual

theorem Fulfils.index_mem : ∀ {rule leaves leaf},
    Fulfils rule leaves → leaf ∈ leaves → leaf ∈ signers rule
  | _, _, _, .signedBy, hleaf => by
    rw [mem_singleton.mp hleaf]
    exact mem_singleton_self _
  | .nOutOf _ rules, _, _, .nOutOf h _, hleaf => by
    obtain ⟨_, hrule, hindex⟩ := h.index_mem hleaf
    rw [signers]
    clear h hleaf
    induction rules with
    | nil => simp at hrule
    | cons _ _ ih =>
      rw [signersOfRules, mem_append]
      rcases mem_cons.mp hrule with rfl | hrule
      · exact .inl hindex
      · exact .inr (ih hrule)

theorem FulfilsRules.index_mem : ∀ {count rules leaves leaf}, FulfilsRules rules count leaves →
    leaf ∈ leaves →
    ∃ rule ∈ rules, leaf ∈ signers rule
  | _, _, _, _, .nil, hleaf => by simp at hleaf
  | _, _ :: _, _, _, .skip h, hleaf => by
    obtain ⟨rule, hrule, hindex⟩ := h.index_mem hleaf
    exact ⟨rule, mem_cons_of_mem _ hrule, hindex⟩
  | _, first :: _, _, _, .take hbelow h, hleaf => by
    rcases mem_append.mp hleaf with hleaf | hleaf
    · exact ⟨first, mem_cons_self, hbelow.index_mem hleaf⟩
    · obtain ⟨rule, hrule, hindex⟩ := h.index_mem hleaf
      exact ⟨rule, mem_cons_of_mem _ hrule, hindex⟩

end

theorem eq_singleton_of_signedBy {index}
    (h : Fulfils (.signedBy index) (assignment.map fst)) : ∃ g, assignment = [(index, g)] := by
  generalize hleaves : assignment.map fst = leaves at h
  cases h
  obtain ⟨⟨_, g⟩, rfl, hleaf⟩ := map_eq_singleton_iff.mp hleaves
  exact ⟨g, by rw [← hleaf]⟩

theorem Fits.of_subset {front back}
    (h : Fits msp identities signedData used back) (hsub : front.Sublist back) :
    Fits msp identities signedData used front where
  nodup := h.nodup.sublist (hsub.map _)
  free := fun a ha => h.free a (hsub.subset ha)
  signs := fun a ha => h.signs a (hsub.subset ha)

theorem Fits.after {taken} (h : Fits msp identities signedData used assignment)
    (havoid : ∀ a ∈ assignment, a.2 ∉ taken) :
    Fits msp identities signedData (mark used taken) assignment where
  nodup := h.nodup
  free := fun a ha => getElem?_mark_eq_false.mpr ⟨h.free a ha, havoid a ha⟩
  signs := h.signs

/-- Without one index at most one rule less is fulfilled. -/
theorem FulfilsRules.without {count rules} (g : Nat)
    (h : FulfilsRules rules count (assignment.map fst)) (hnodup : (assignment.map snd).Nodup) :
    ∃ (count' : Nat) (rest : List (Int × Nat)),
      FulfilsRules rules count' (rest.map fst) ∧ rest.Sublist assignment ∧
      (∀ a ∈ rest, a.2 ≠ g) ∧ count ≤ count' + 1 := by
  induction rules generalizing count assignment with
  | nil =>
    generalize assignment.map fst = leaves at h
    cases h
    exact ⟨0, [], .nil, nil_sublist _, by simp, by omega⟩
  | cons _ _ ih =>
    generalize hleaves : assignment.map fst = leaves at h
    cases h with
    | skip h =>
      rw [← hleaves] at h
      obtain ⟨count', rest, hrest, hsub, havoid, hcount⟩ := ih h hnodup
      exact ⟨count', rest, .skip hrest, hsub, havoid, hcount⟩
    | @take _ _ count _ _ hbelow h =>
      obtain ⟨front, back, rfl, hfront, rfl⟩ := map_eq_append_iff.mp hleaves
      rw [map_append, nodup_append] at hnodup
      by_cases hg : g ∈ front.map snd
      · refine ⟨count, back, .skip h, sublist_append_right _ _, ?_, le_refl _⟩
        rintro a ha rfl
        exact hnodup.2.2 _ hg _ (mem_map_of_mem ha) rfl
      · obtain ⟨count', rest, hrest, hsub, havoid, _⟩ := ih h hnodup.2.1
        refine ⟨count' + 1, front ++ rest, ?_, Sublist.append_left hsub front, ?_, by omega⟩
        · rw [map_append, hfront]
          exact .take hbelow hrest
        · intro a ha
          rcases mem_append.mp ha with ha | ha
          · rintro rfl
            exact hg (mem_map_of_mem ha)
          · exact havoid a ha

/-! ## Exchange -/

section

variable {rule : SignaturePolicy} {rules : List SignaturePolicy} {count : Nat}
  {taken rest : List (Int × Nat)}

theorem Fits.replace {g w} (h : Fits msp identities signedData used rest)
    (hne : w ≠ g) (hw : w ∉ rest.map snd) (hfree : used[w]? = some false)
    (hsigns : ∀ a ∈ rest, a.2 = g →
      ∃ sd, signedData[w]? = some sd ∧ Signs msp identities a.1 sd) :
    Fits msp identities signedData (mark used [g])
      (rest.map fun a => if a.2 = g then (a.1, w) else a) where
  nodup := by
    rw [map_map]
    refine Nodup.map_on ?_ (Nodup.of_map _ h.nodup)
    have hinj := inj_on_of_nodup_map h.nodup
    intro a ha b hb heq
    have hwa : a.2 ≠ w := fun heq => hw (mem_map.mpr ⟨a, ha, heq⟩)
    apply hinj ha hb
    simp only [comp_apply] at heq
    split at heq <;> split at heq <;> simp_all
  free := by
    intro a ha
    obtain ⟨b, hb, rfl⟩ := mem_map.mp ha
    rw [getElem?_mark_eq_false, mem_singleton]
    split
    · exact ⟨hfree, hne⟩
    next hg => exact ⟨h.free b hb, hg⟩
  signs := by
    intro a ha
    obtain ⟨b, hb, rfl⟩ := mem_map.mp ha
    split
    next hg => exact hsigns b hb hg
    · exact h.signs b hb

variable (hordered : ∀ rule' ∈ rules, MorePrivileged msp identities signedData rule rule')
  (hfulfils : Fulfils rule (taken.map fst)) (htaken : Fits msp identities signedData used taken)
  (hrules : FulfilsRules rules count (rest.map fst))

include hordered hfulfils htaken hrules

/-- What the evaluation takes for a rule is at hand for the others, unless the rule is a leaf. -/
theorem Fits.after_or (hrest : Fits msp identities signedData used rest) :
    Fits msp identities signedData (mark used (taken.map snd)) rest ∨
    ∃ index g, rule = .signedBy index ∧ taken = [(index, g)] ∧ g ∈ rest.map snd ∧
      ∀ a ∈ rest, a.2 = g → ∀ sd ∈ signedData, Signs msp identities index sd →
        Signs msp identities a.1 sd := by
  have hshared : ∀ a ∈ rest, ∀ b ∈ taken, a.2 = b.2 → rule = .signedBy b.1 ∧
      ∀ sd ∈ signedData, Signs msp identities b.1 sd → Signs msp identities a.1 sd := by
    intro a ha b hb heq
    obtain ⟨sd, hget, hsigns⟩ := hrest.signs a ha
    obtain ⟨_, hget', hsigns'⟩ := htaken.signs b hb
    rw [heq, hget'] at hget
    cases hget
    obtain ⟨rule', hrule', hindex⟩ := hrules.index_mem (mem_map_of_mem ha)
    have hpair := hordered rule' hrule' _ (hfulfils.index_mem (mem_map_of_mem hb)) _ hindex
      ⟨sd, mem_of_getElem? hget', hsigns', hsigns⟩
    exact ⟨hpair.1, hpair.2.2⟩
  by_cases havoid : ∀ a ∈ rest, a.2 ∉ taken.map snd
  · exact .inl (hrest.after havoid)
  push Not at havoid
  obtain ⟨a, ha, hmem⟩ := havoid
  obtain ⟨b, hb, heq⟩ := mem_map.mp hmem
  obtain ⟨hrule, -⟩ := hshared a ha b hb heq.symm
  rw [hrule] at hfulfils
  obtain ⟨g, rfl⟩ := eq_singleton_of_signedBy hfulfils
  refine .inr ⟨b.1, g, hrule, rfl, ?_, ?_⟩
  · rw [mem_singleton.mp hb] at heq
    exact mem_map.mpr ⟨a, ha, heq.symm⟩
  · intro a' ha' hg
    exact (hshared a' ha' (b.1, g) (mem_singleton_self _) hg).2

/-- A rule that the assignment does not use costs it one other rule at most. -/
theorem Fits.after_skipped (hrest : Fits msp identities signedData used rest) :
    ∃ (count' : Nat) (rest' : List (Int × Nat)),
      FulfilsRules rules count' (rest'.map fst) ∧
      Fits msp identities signedData (mark used (taken.map snd)) rest' ∧
      count ≤ count' + 1 := by
  rcases htaken.after_or hordered hfulfils hrules hrest with hfits | ⟨_, g, -, rfl, -, -⟩
  · exact ⟨count, rest, hrules, hfits, le_succ count⟩
  · obtain ⟨count', rest', hrules', hsub, havoid, hcount⟩ := hrules.without g hrest.nodup
    refine ⟨count', rest', hrules', (hrest.of_subset hsub).after ?_, hcount⟩
    intro a ha
    rw [map_singleton, mem_singleton]
    exact havoid a ha

/-- A rule that the assignment uses costs it no other rule. -/
theorem Fits.after_used {below} (hfits : Fits msp identities signedData used (below ++ rest))
    (hbelow : Fulfils rule (below.map fst)) :
    ∃ rest' : List (Int × Nat), FulfilsRules rules count (rest'.map fst) ∧
      Fits msp identities signedData (mark used (taken.map snd)) rest' := by
  have hrest := hfits.of_subset (sublist_append_right below rest)
  rcases htaken.after_or hordered hfulfils hrules hrest with
    hmark | ⟨index, g, rfl, rfl, hg, hsigns⟩
  · exact ⟨rest, hrules, hmark⟩
  obtain ⟨w, rfl⟩ := eq_singleton_of_signedBy hbelow
  have hmem : (index, w) ∈ [(index, w)] ++ rest := by simp
  have hw : w ∉ rest.map snd := (nodup_cons.mp hfits.nodup).1
  obtain ⟨sd, hget, hsd⟩ := hfits.signs _ hmem
  have hne : w ≠ g := by
    rintro rfl
    exact hw hg
  refine ⟨rest.map fun a => if a.2 = g then (a.1, w) else a, ?_, ?_⟩
  · rw [map_map]
    convert hrules using 2
    funext a
    simp only [comp_apply]
    split <;> rfl
  · apply hrest.replace hne hw (hfits.free _ hmem)
    intro a ha hag
    exact ⟨sd, hget, hsigns a ha hag sd (mem_of_getElem? hget) hsd⟩

end

/-! ## Completeness -/

theorem evaluateSignedBy_of_free {principal i j sd} (hget : signedData[j]? = some sd)
    (hsigns : signs msp principal sd = true) (hfree : used.getD (i + j) false = false) :
    (evaluateSignedBy msp principal i signedData used).1 = true := by
  induction signedData generalizing i j with
  | nil => simp at hget
  | cons _ _ ih =>
    rw [evaluateSignedBy]
    cases j with
    | zero =>
      obtain rfl := Option.some.inj hget
      rw [add_zero] at hfree
      simp only [hfree, hsigns, Bool.false_eq_true, if_false, if_true]
    | succ j =>
      have hlater := ih hget (by rwa [add_assoc, add_comm 1 j])
      split
      · exact hlater
      · split
        · rfl
        · exact hlater

mutual

/-- With a fitting assignment left, the policy succeeds. -/
theorem compile_complete : ∀ {rule policy used assignment},
    compile msp identities rule = .ok policy →
    ByPrivilege msp identities signedData rule → signedData.length ≤ used.length →
    Fulfils rule (assignment.map fst) → Fits msp identities signedData used assignment →
    (policy signedData used).1 = true
  | .empty, _, _, _, h, _, _, _, _ | .untyped, _, _, _, h, _, _, _, _ => by simp [compile] at h
  | .signedBy index, _, _, _, h, _, _, hfulfils, hfits => by
    obtain ⟨_, -, hprincipal, rfl⟩ := compile_signedBy_eq_ok h
    obtain ⟨w, rfl⟩ := eq_singleton_of_signedBy hfulfils
    obtain ⟨_, hget, _, -, hprincipal', hsigns⟩ :=
      hfits.signs _ (mem_singleton_self _)
    rw [hprincipal] at hprincipal'
    cases hprincipal'
    apply evaluateSignedBy_of_free hget hsigns
    rw [zero_add, getD_eq_getElem?_getD, hfits.free _ (mem_singleton_self _)]
    rfl
  | .nOutOf n rules, _, _, _, h, hordered, hlength, hfulfils, hfits => by
    obtain ⟨_, hpolicies, rfl⟩ := compile_nOutOf_eq_ok h
    obtain ⟨_, hordered⟩ := hordered
    cases hfulfils with
    | nOutOf hfulfils =>
      have hcount := compileRules_complete hpolicies hordered hlength (v := 0) (by decide)
        (by omega) hfulfils hfits
      rw [evaluateNOutOf, decide_eq_true_eq]
      omega

theorem compileRules_complete : ∀ {rules policies used assignment} {v : Int} {count},
    compileRules msp identities rules = .ok policies →
    RulesByPrivilege msp identities signedData rules → signedData.length ≤ used.length →
    0 ≤ v → v + rules.length < 2 ^ 31 → FulfilsRules rules count (assignment.map fst) →
    Fits msp identities signedData used assignment →
    v + count ≤ (countVerified signedData policies v used).1
  | [], _, _, assignment, _, _, h, _, _, _, _, hfulfils, _ => by
    cases h
    generalize assignment.map fst = leaves at hfulfils
    cases hfulfils
    simp [countVerified]
  | rule :: rules, _, used, assignment, v, _, h, ⟨hrule, hordered, hrules⟩, hlength, hv,
      hsmall, hfulfils, hfits => by
      obtain ⟨_, policies, hpolicy, hpolicies, rfl⟩ := compileRules_cons_eq_ok h
      rw [length_cons] at hsmall
      rw [countVerified]
      split
      next htrue =>
        obtain ⟨taken, htaken, hfits', hused⟩ := compile_sound hpolicy hlength htrue
        have hwrap : toInt32 (v + 1) = v + 1 := by
          rw [toInt32, Int.bmod_def]
          omega
        rw [hused, hwrap]
        have hlength' : signedData.length ≤ (mark used (taken.map snd)).length := by
          rwa [length_mark]
        have hafter : ∀ {count' : Nat} {rest : List (Int × Nat)},
            FulfilsRules rules count' (rest.map fst) →
            Fits msp identities signedData (mark used (taken.map snd)) rest →
            v + 1 + count' ≤ (countVerified signedData policies (v + 1)
              (mark used (taken.map snd))).1 :=
          compileRules_complete hpolicies hrules hlength' (by omega) (by omega)
        generalize hleaves : assignment.map fst = leaves at hfulfils
        cases hfulfils with
        | skip hskip =>
          rw [← hleaves] at hskip
          obtain ⟨_, rest, hrest, hfits'', _⟩ :=
            hfits'.after_skipped hordered htaken hskip hfits
          have := hafter hrest hfits''
          omega
        | take hbelow htake =>
          obtain ⟨below, rest, rfl, rfl, rfl⟩ := map_eq_append_iff.mp hleaves
          obtain ⟨_, hrest', hfits''⟩ :=
            hfits'.after_used hordered htaken htake hfits hbelow
          have := hafter hrest' hfits''
          omega
      next hfalse =>
        generalize hleaves : assignment.map fst = leaves at hfulfils
        cases hfulfils with
        | skip hskip =>
          rw [← hleaves] at hskip
          exact compileRules_complete hpolicies hrules hlength hv (by omega) hskip hfits
        | take hbelow =>
          obtain ⟨below, rest, rfl, rfl, rfl⟩ := map_eq_append_iff.mp hleaves
          have hbelow' := hfits.of_subset (sublist_append_left below rest)
          exact absurd (compile_complete hpolicy hrule hlength hbelow hbelow') hfalse

end

theorem ConsistentKeys.mono (h : ConsistentKeys msp identities sds) (hsub : signedData ⊆ sds) :
    ConsistentKeys msp identities signedData :=
  fun sd hsd sd' hsd' => h sd (hsub hsd) sd' (hsub hsd')

/-- The data of an assignment are represented among those without duplicates. -/
theorem Assigns.exists_fits {assignment}
    (h : Assigns msp envelope sds assignment) (hkeys : ConsistentKeys msp envelope.identities sds) :
    ∃ indices : List (Int × Nat), indices.map fst = assignment.map fst ∧
      Fits msp envelope.identities (deduplicate msp sds) (replicate sds.length false)
        indices := by
  have hindex : ∀ a, ∃ j : Nat, a ∈ assignment → ∃ sd,
      (deduplicate msp sds)[j]? = some sd ∧ ¬ DifferentKeys msp a.2 sd ∧
      Signs msp envelope.identities a.1 sd := by
    intro a
    by_cases ha : a ∈ assignment
    case neg => exact ⟨0, fun h => absurd h ha⟩
    have hsigns := h.signs a ha
    obtain ⟨_, -, -, hprincipal⟩ := hsigns
    obtain ⟨identity, hread, -⟩ := signs_eq_true_iff.mp hprincipal
    obtain ⟨sd, hsd, identity', hread', hkey⟩ :=
      (exists_mem_deduplicateFrom (h.mem a ha) hread).resolve_left not_mem_nil
    obtain ⟨j, hj⟩ := getElem?_of_mem hsd
    have hsame : ¬ DifferentKeys msp a.2 sd := fun hne => hne _ _ hread hread' hkey.symm
    refine ⟨j, fun _ => ⟨sd, hj, hsame, ?_⟩⟩
    have hboth := hkeys a.2 (h.mem a ha) sd (mem_deduplicateFrom hsd).1
    exact ((hboth.resolve_left hsame).2 _).mp (h.signs a ha)
  choose index hindex using hindex
  refine ⟨assignment.map fun a => (a.1, index a), by simp [comp_def], ?_, ?_, ?_⟩
  · rw [map_map, Nodup, pairwise_map]
    refine h.different.imp_of_mem ?_
    intro a b ha hb hne heq
    obtain ⟨sd, hget, hkey, -⟩ := hindex a ha
    obtain ⟨_, hget', hkey', -⟩ := hindex b hb
    rw [show index a = index b from heq, hget'] at hget
    cases hget
    rcases hkeys a.2 (h.mem a ha) b.2 (h.mem b hb) with hdiffer | ⟨hsame, -⟩
    · unfold DifferentKeys at hkey hkey'
      push Not at hkey hkey'
      obtain ⟨_, _, hread, hmid, heq⟩ := hkey
      obtain ⟨_, _, hread', hmid', heq'⟩ := hkey'
      rw [hmid] at hmid'
      cases hmid'
      exact hdiffer _ _ hread hread' (heq.trans heq'.symm)
    · exact hsame hne
  · intro b hb
    obtain ⟨a, ha, rfl⟩ := mem_map.mp hb
    obtain ⟨sd, hget, -⟩ := hindex a ha
    have hlength : (deduplicate msp sds).length ≤ sds.length := length_deduplicateFrom_le
    have hlt := (List.getElem?_eq_some_iff.mp hget).1
    simp [getElem?_replicate, if_pos (show index a < sds.length by omega)]
  · intro b hb
    obtain ⟨a, ha, rfl⟩ := mem_map.mp hb
    obtain ⟨sd, hget, -, hsigns⟩ := hindex a ha
    exact ⟨sd, hget, hsigns⟩

theorem evaluate_iff_assigns {policy} (hpolicy : newPolicy msp (some envelope) = .ok policy)
    (hkeys : ConsistentKeys msp envelope.identities sds)
    (hordered : ByPrivilege msp envelope.identities sds envelope.rule) :
    evaluate msp (some policy) sds = .ok () ↔
      ∃ assignment, Assigns msp envelope sds assignment := by
  refine ⟨assigns_of_evaluate hpolicy, ?_⟩
  rintro ⟨_, hassigns⟩
  obtain ⟨_, hindices, hfits⟩ := hassigns.exists_fits hkeys
  have hsub : deduplicate msp sds ⊆ sds := fun _ hsd => (mem_deduplicateFrom hsd).1
  have hfulfils := hassigns.fulfils
  rw [← hindices] at hfulfils
  rw [evaluate_eq_ok]
  exact compile_complete hpolicy (hordered.mono hsub) length_deduplicate_le hfulfils hfits

theorem Assigns.mono {assignment}
    (h : Assigns msp envelope signedData assignment) (hsub : signedData ⊆ sds) :
    Assigns msp envelope sds assignment :=
  { h with mem := fun a ha => hsub (h.mem a ha) }

end

/-- Where only leaves of one gate compete for signed data, and are listed by privilege, a policy
accepts every list that different identities have signed for it, in any order and with any
further signatures. -/
theorem evaluate_complete (envelope : SignaturePolicyEnvelope Principal) (policy : Evaluator)
    (signatureSet : List SignedData) (hpolicy : newPolicy msp (some envelope) = .ok policy)
    (hkeys : ConsistentKeys msp envelope.identities signatureSet)
    (hordered : ByPrivilege msp envelope.identities signatureSet envelope.rule) :
    (∀ assignment, Assigns msp envelope signatureSet assignment →
      evaluate msp (some policy) signatureSet = .ok ()) ∧
    (∀ other : List SignedData, other.Perm signatureSet →
      (evaluate msp (some policy) other = .ok () ↔
        evaluate msp (some policy) signatureSet = .ok ())) ∧
    (∀ more : List SignedData, signatureSet ⊆ more →
      ConsistentKeys msp envelope.identities more →
      ByPrivilege msp envelope.identities more envelope.rule →
      evaluate msp (some policy) signatureSet = .ok () →
      evaluate msp (some policy) more = .ok ()) := by
  have hiff := evaluate_iff_assigns hpolicy hkeys hordered
  refine ⟨fun assignment hassigns => hiff.mpr ⟨assignment, hassigns⟩, ?_, ?_⟩
  · intro _ hperm
    rw [hiff, evaluate_iff_assigns hpolicy (hkeys.mono hperm.subset) (hordered.mono hperm.subset)]
    constructor
    · rintro ⟨assignment, hassigns⟩
      exact ⟨assignment, hassigns.mono hperm.subset⟩
    · rintro ⟨assignment, hassigns⟩
      exact ⟨assignment, hassigns.mono hperm.symm.subset⟩
  · intro _ hsub hkeys' hordered' haccept
    obtain ⟨assignment, hassigns⟩ := hiff.mp haccept
    exact (evaluate_iff_assigns hpolicy hkeys' hordered').mpr ⟨assignment, hassigns.mono hsub⟩

theorem evaluate_complete_adminAndMember :
    ∃ policy, newPolicy org1 (some adminAndMember) = .ok policy ∧
      (evaluate org1 (some policy) [⟨[], [1], [1]⟩, ⟨[], [0], [1]⟩] = .ok () ↔
        evaluate org1 (some policy) [⟨[], [0], [1]⟩, ⟨[], [1], [1]⟩] = .ok ()) := by
  have hkeys : ConsistentKeys org1 adminAndMember.identities
      [⟨[], [0], [1]⟩, ⟨[], [1], [1]⟩] := by
    intro sd hsd sd' hsd'
    by_cases heq : sd = sd'
    · subst heq
      refine .inr ⟨?_, fun _ => Iff.rfl⟩
      simp only [mem_cons, not_mem_nil, or_false] at hsd
      rcases hsd with rfl | rfl
      · exact fun h => h false false rfl rfl rfl
      · exact fun h => h true true rfl rfl rfl
    · simp only [mem_cons, not_mem_nil, or_false] at hsd hsd'
      left
      rcases hsd with rfl | rfl <;> rcases hsd' with rfl | rfl
      · exact absurd rfl heq
      · rintro _ _ ⟨⟩ ⟨⟩
        decide
      · rintro _ _ ⟨⟩ ⟨⟩
        decide
      · exact absurd rfl heq
  have hordered : ByPrivilege org1 adminAndMember.identities
      [⟨[], [0], [1]⟩, ⟨[], [1], [1]⟩] adminAndMember.rule := by
    refine ⟨by decide, trivial, ?_, trivial, by simp, trivial⟩
    intro _ hrule _ hindex _ hindex' _
    rw [mem_singleton] at hrule
    subst hrule
    obtain rfl := mem_singleton.mp hindex
    obtain rfl := mem_singleton.mp hindex'
    refine ⟨rfl, rfl, fun _ hsd _ => ⟨false, by decide, rfl, ?_⟩⟩
    simp only [mem_cons, not_mem_nil, or_false] at hsd
    rcases hsd with rfl | rfl <;> decide
  exact ⟨_, newPolicy_adminAndMember, (evaluate_complete org1 adminAndMember _ _
    newPolicy_adminAndMember hkeys hordered).2.1 _ (Perm.swap _ _ _)⟩

/-- The less privileged principal is listed first. -/
def memberAndAdmin : SignaturePolicyEnvelope Bool :=
  ⟨.nOutOf 2 [.signedBy 0, .signedBy 1], [false, true]⟩

/-- The signature of the administrator is consumed by the leaf for members, although the member has
signed as well; in the other order both leaves are satisfied. -/
theorem evaluate_depends_on_order :
    ∃ policy, newPolicy org1 (some memberAndAdmin) = .ok policy ∧
      (∃ assignment, Assigns org1 memberAndAdmin [⟨[], [1], [1]⟩, ⟨[], [0], [1]⟩] assignment) ∧
      evaluate org1 (some policy) [⟨[], [1], [1]⟩, ⟨[], [0], [1]⟩] ≠ .ok () ∧
      evaluate org1 (some policy) [⟨[], [0], [1]⟩, ⟨[], [1], [1]⟩] = .ok () := by
  have hpolicy : newPolicy org1 (some memberAndAdmin) = .ok (evaluateNOutOf 2
      [evaluateSignedBy org1 false 0, evaluateSignedBy org1 true 0]) := by
    simp [newPolicy, memberAndAdmin, compile, compileRules, toInt32, bind, Except.bind, pure,
      Except.pure]
  refine ⟨_, hpolicy, ⟨[(0, ⟨[], [0], [1]⟩), (1, ⟨[], [1], [1]⟩)], ?_, ?_, ?_, ?_⟩,
    by decide +kernel, by decide +kernel⟩
  · exact .nOutOf (.take .signedBy (.take .signedBy .nil)) (by decide)
  · simp
  · intro a ha
    simp only [mem_cons, not_mem_nil, or_false] at ha
    rcases ha with rfl | rfl
    · exact ⟨false, by decide, rfl, by decide⟩
    · exact ⟨true, by decide, rfl, by decide⟩
  · simp only [pairwise_cons, mem_singleton, forall_eq, not_mem_nil,
      false_imp_iff, implies_true, Pairwise.nil, and_true]
    rintro _ _ ⟨⟩ ⟨⟩
    decide

end Loki.Fabric.Cauthdsl
