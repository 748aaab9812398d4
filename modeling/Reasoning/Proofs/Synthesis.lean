/-
  Insights in any order.

  What comes of some insights does not depend on the order in which they are given.

  * `laterPairs_filterMap_perm`: what is gathered over pairs without regard to their orientation;
  * `Dict.forall₂_ofList`: tables of related entries;
  * `InsightSynthesis.Rearranged`, `InsightSynthesis.rearranged_of_perm`: what stays the same.
-/
import Mathlib.Data.List.Perm.Basic
import Mathlib.Data.Sym.Sym2
import Reasoning.Domain.Synthesis
import Reasoning.Proofs.Dict
import Reasoning.Proofs.Stem
import Reasoning.Registry.Seed

namespace Reasoning

/-! ## Pairs -/

section
variable {α β : Type} {as bs : List α}

theorem isEmpty_congr (h : as.length = bs.length) : as.isEmpty = bs.isEmpty := by
  rw [Bool.eq_iff_iff, List.isEmpty_iff_length_eq_zero, List.isEmpty_iff_length_eq_zero, h]

/-- What is gathered over the pairs of a list does not depend on its order, if it is the same for a
    pair either way round. -/
theorem laterPairs_filterMap_perm {g : α × α → Option β} (hg : ∀ a b, g (a, b) = g (b, a))
    (h : as.Perm bs) : ((laterPairs as).filterMap g).Perm ((laterPairs bs).filterMap g) := by
  induction h with
  | nil => exact .refl _
  | cons a h ih =>
    simp only [laterPairs, List.filterMap_append]
    exact ((h.map _).filterMap g).append ih
  | swap a b as =>
    -- The pair of both turns round, and what either makes with the rest changes places.
    simp only [laterPairs, List.map_cons, List.cons_append, List.filterMap_cons,
      List.filterMap_append, hg a b]
    have hrest := List.perm_append_comm_assoc ((as.map fun c => (b, c)).filterMap g)
      ((as.map fun c => (a, c)).filterMap g) ((laterPairs as).filterMap g)
    cases g (b, a) with
    | none => exact hrest
    | some x => exact hrest.cons x
  | trans _ _ ih ih' => exact ih.trans ih'

end

/-! ## Tables -/

namespace Dict

variable {ν : Type} {R : ν → ν → Prop} {d d' : Dict ν} {entries entries' : List (Text × ν)}

/-- The same key, with related values. -/
def Entry.Rel (R : ν → ν → Prop) (e e' : Text × ν) : Prop := e.1 = e'.1 ∧ R e.2 e'.2

theorem forall₂_insert {v v' : ν} (hv : R v v') (k : Text)
    (h : List.Forall₂ (Entry.Rel R) d d') :
    List.Forall₂ (Entry.Rel R) (Dict.insert k v d) (Dict.insert k v' d') := by
  induction h with
  | nil => exact .cons ⟨rfl, hv⟩ .nil
  | @cons e e' d d' he hd ih =>
    obtain ⟨l, w⟩ := e
    obtain ⟨l', w'⟩ := e'
    obtain ⟨rfl, hw⟩ : l = l' ∧ R w w' := he
    rw [Dict.insert, Dict.insert]
    split
    · exact .cons ⟨rfl, hv⟩ (.cons ⟨rfl, hw⟩ hd)
    · split
      · exact .cons ⟨rfl, hv⟩ hd
      · exact .cons ⟨rfl, hw⟩ ih

/-- Related entries make tables with the same keys and related values. -/
theorem forall₂_ofList (h : List.Forall₂ (Entry.Rel R) entries entries') :
    List.Forall₂ (Entry.Rel R) (ofList entries) (ofList entries') := by
  suffices hfold : ∀ d d', List.Forall₂ (Entry.Rel R) d d' →
      List.Forall₂ (Entry.Rel R) (entries.foldl (fun d e => Dict.insert e.1 e.2 d) d)
        (entries'.foldl (fun d e => Dict.insert e.1 e.2 d) d') from hfold [] [] .nil
  induction h with
  | nil => exact fun _ _ hd => hd
  | @cons e e' _ _ he _ ih =>
    intro d d' hd
    obtain ⟨l, w⟩ := e
    obtain ⟨l', w'⟩ := e'
    obtain ⟨rfl, hw⟩ : l = l' ∧ R w w' := he
    exact ih _ _ (forall₂_insert hw l hd)

theorem keys_of_forall₂ (h : List.Forall₂ (Entry.Rel R) d d') : d.keys = d'.keys := by
  induction h with
  | nil => rfl
  | cons he _ ih => rw [keys, keys, List.map_cons, List.map_cons, he.1]; exact congrArg _ ih

end Dict

/-! ## Insights -/

theorem Insight.complements_comm (a b : Insight) : a.complements b = b.complements a := by
  rw [complements, complements, Text.anyRelated_comm, bne_comm, Bool.and_comm (!a.homes.isEmpty)]

namespace InsightSynthesis

variable {insights insights' : List Text} {read read' : List Insight}

/-- The same comes of the insights, up to the order of insights and pairs and the orientation of
    pairs. -/
structure Rearranged (s s' : InsightSynthesis) : Prop where
  issues : s.issues = s'.issues
  valid : s.valid = s'.valid
  confidence : s.confidence = s'.confidence
  summary : s.summary = s'.summary
  byDomain : List.Forall₂ (fun e e' => e.1 = e'.1 ∧ e.2.Perm e'.2) s.byDomain s'.byDomain
  incorporated : s.incorporated.Perm s'.incorporated
  complementary : (s.complementary.map fun p => s(p.1, p.2)).Perm
    (s'.complementary.map fun p => s(p.1, p.2))

theorem homesOf_perm (ds : List Domain) (h : read.Perm read') :
    List.Forall₂ (Dict.Entry.Rel List.Perm) (homesOf ds read) (homesOf ds read') := by
  refine Dict.forall₂_ofList ?_
  induction ds with
  | nil => exact .nil
  | cons d ds ih =>
    have hfound := h.filter fun i => i.homes.contains d.name
    rw [List.filterMap_cons, List.filterMap_cons]
    cases hread : read.filter fun i => i.homes.contains d.name with
    | nil =>
      rw [hread] at hfound
      rw [hfound.nil_eq.symm]
      exact ih
    | cons i is =>
      rw [hread] at hfound
      cases hread' : read'.filter fun i => i.homes.contains d.name with
      | nil =>
        rw [hread'] at hfound
        exact absurd hfound.eq_nil (List.cons_ne_nil _ _)
      | cons j js =>
        rw [hread'] at hfound
        exact .cons ⟨rfl, hfound.map _⟩ ih

theorem issuesOf_congr (hlength : insights.length = insights'.length) {d d' : Dict (List Text)}
    (hkeys : d.keys = d'.keys) (ds : List Domain) (ratio : Single) :
    issuesOf insights ds d ratio = issuesOf insights' ds d' ratio := by
  have hempty := isEmpty_congr hlength
  have hcontains (k : Text) : d.contains k = d'.contains k := by
    rw [Bool.eq_iff_iff, Dict.contains_iff, Dict.contains_iff, hkeys]
  unfold issuesOf
  simp only [hempty, hcontains]

theorem complementary_perm (h : insights.Perm insights') (r : Registry) (names : List Text) :
    ((of r insights names).complementary.map fun p => s(p.1, p.2)).Perm
      ((of r insights' names).complementary.map fun p => s(p.1, p.2)) := by
  let g (p : Insight × Insight) : Option (Sym2 Text) :=
    if p.1.complements p.2 then some s(p.1.text, p.2.text) else none
  have hg (insights : List Text) : (of r insights names).complementary.map (fun p => s(p.1, p.2)) =
      (laterPairs (insights.map (Insight.of (r.namedDomains names)))).filterMap g := by
    unfold of
    dsimp only
    rw [List.map_map, ← List.filterMap_eq_map, List.filterMap_filter]
    rfl
  rw [hg, hg]
  refine laterPairs_filterMap_perm (fun a b => ?_) (h.map _)
  simp only [g, Insight.complements_comm a b, Sym2.eq_swap (a := a.text)]

/-- **The order of the insights does not matter.** -/
theorem rearranged_of_perm (h : insights.Perm insights') (r : Registry) (names : List Text) :
    (of r insights names).Rearranged (of r insights' names) := by
  have hread := h.map (Insight.of (r.namedDomains names))
  have hbyDomain := homesOf_perm (r.namedDomains names) hread
  have hincorporated := (hread.filter fun i => !i.homes.isEmpty).map Insight.text
  have hcomplementary := complementary_perm h r names
  have hpairs : (of r insights names).complementary.length =
      (of r insights' names).complementary.length := by
    have := hcomplementary.length_eq
    rwa [List.length_map, List.length_map] at this
  have hissues : (of r insights names).issues = (of r insights' names).issues := by
    show issuesOf _ _ _ (share _ _) = issuesOf _ _ _ (share _ _)
    rw [hincorporated.length_eq, h.length_eq,
      issuesOf_congr h.length_eq (Dict.keys_of_forall₂ hbyDomain)]
  refine ⟨hissues, congrArg List.isEmpty hissues, ?_, ?_, hbyDomain, hincorporated, hcomplementary⟩
  · unfold of at hissues ⊢
    dsimp only at hissues ⊢
    rw [hissues, hincorporated.length_eq, h.length_eq, hbyDomain.length_eq]
  · have hnone := isEmpty_congr hpairs
    unfold of at hpairs hnone ⊢
    dsimp only at hpairs hnone ⊢
    rw [hpairs, hnone, hincorporated.length_eq, h.length_eq, hbyDomain.length_eq]

/-- A repeated insight makes a pair each time, on either side of the other one. -/
theorem rearranged_of_repeated :
    let cache := Text.ofString "Caches need storage"
    let balance := Text.ofString "Homeostasis needs storage"
    let names := Text.ofStrings ["biology", "technology"]
    let s := of .seeded [cache, cache, balance] names
    let s' := of .seeded [balance, cache, cache] names
    [cache, cache, balance].Perm [balance, cache, cache] ∧
      s.Rearranged s' ∧ s.complementary = [(cache, balance), (cache, balance)] ∧
      s'.complementary = [(balance, cache), (balance, cache)] := by
  intro cache balance names s s'
  have hperm : [cache, cache, balance].Perm [balance, cache, cache] := by decide +kernel
  exact ⟨hperm, rearranged_of_perm hperm .seeded names, by decide +kernel, by decide +kernel⟩

end InsightSynthesis

end Reasoning
