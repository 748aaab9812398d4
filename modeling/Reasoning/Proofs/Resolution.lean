/-
  The domains of a request.

  A request names its domains in a list, or means all of them.  How the list is written does not
  matter for which domains these are, and none of them comes twice.

  * `Registry.Denotes`, `Registry.Selects`: which domains a list of names is about;
  * `Registry.mem_namedDomains`, `Registry.nodup_namedDomains`: these are found, each once;
  * `Registry.resolveDomains_perm`: lists of names about the same domains find the same.
-/
import Reasoning.Proofs.Naming

namespace Reasoning.Registry

variable {r : Registry} {names names' : List Text} {d e : Domain}

/-- One of the names stands for the domain, whatever its case and the space around it. -/
def Denotes (r : Registry) (names : List Text) (d : Domain) : Prop :=
  ∃ name ∈ names, r.domain? (Domain.lookupName name) = some d

/-- A request with these names is about the domain; without names it is about all domains. -/
def Selects (r : Registry) (names : List Text) (d : Domain) : Prop :=
  if names = [] then d ∈ r.domains.items else r.Denotes names d

theorem denotes_iff_mem : r.Denotes names d ↔
    d ∈ names.filterMap fun name => r.domain? (Domain.lookupName name) := List.mem_filterMap.symm

theorem nodup_resolveDomains (h : r.Consistent) (names : List Text) :
    ((r.resolveDomains names).domains.map (·.name)).Nodup := by
  induction names using List.reverseRecOn with
  | nil => exact List.nodup_nil
  | append_singleton names name ih =>
    rw [resolveDomains_concat]
    dsimp only
    split
    · exact ih
    · rename_i hnew
      split
      · rename_i d hd
        rw [(h.domain?_eq_some_iff.1 hd).2.symm] at hnew
        simp only [Bool.or_eq_true, not_or, List.any_eq_true, beq_iff_eq] at hnew
        rw [List.map_append, List.map_singleton, ← List.concat_eq_append]
        exact ih.concat fun hmem => hnew.2 (List.mem_map.1 hmem)
      · exact ih

theorem mem_namedDomains (h : r.Consistent) :
    d ∈ r.namedDomains names ↔ r.Selects names d := by
  unfold namedDomains Selects
  by_cases hnames : names = []
  · rw [if_pos (List.isEmpty_iff.2 hnames), if_pos hnames]
  · rw [if_neg (mt List.isEmpty_iff.1 hnames), if_neg hnames]
    exact mem_domains_resolveDomains h

theorem Consistent.nodup_names (h : r.Consistent) : (r.domains.items.map (·.name)).Nodup :=
  h.domains.map_key_items ▸ h.domains.distinct

theorem nodup_namedDomains (h : r.Consistent) (names : List Text) :
    ((r.namedDomains names).map (·.name)).Nodup := by
  unfold namedDomains
  split
  · exact h.nodup_names
  · exact nodup_resolveDomains h names

/-- Registered domains are told apart by their names. -/
theorem Consistent.eq_of_name_eq (h : r.Consistent) (hd : d ∈ r.domains.items)
    (he : e ∈ r.domains.items) (hname : d.name = e.name) : d = e :=
  List.inj_on_of_nodup_map h.nodup_names hd he hname

theorem Denotes.mem_items (h : r.Consistent) (hd : r.Denotes names d) : d ∈ r.domains.items := by
  obtain ⟨name, -, hd⟩ := hd
  exact (h.domain?_eq_some_iff.1 hd).1

theorem Selects.mem_items (h : r.Consistent) (hd : r.Selects names d) : d ∈ r.domains.items := by
  unfold Selects at hd
  split at hd
  · exact hd
  · exact hd.mem_items h

/-- Lists of names about the same domains find the same domains. -/
theorem resolveDomains_perm (h : r.Consistent)
    (hsame : ∀ d, r.Denotes names d ↔ r.Denotes names' d) :
    (r.resolveDomains names).domains.Perm (r.resolveDomains names').domains := by
  refine (List.perm_ext_iff_of_nodup (nodup_resolveDomains h names).of_map
    (nodup_resolveDomains h names').of_map).2 fun d => ?_
  rw [mem_domains_resolveDomains h, mem_domains_resolveDomains h]
  exact hsame d

end Reasoning.Registry
