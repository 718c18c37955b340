import Mathlib.Data.List.Pairwise
import Mathlib.Order.Bounds.Defs
import PauliLowering.Proofs.SupportInvariant

/-!
Which lists of columns make a support, and what the others are refused for.

`Support.Consistent` says of the lists alone that they fit together. For lists without a fault of
their own this is the same as that the search for a shared column finds none
(`Proper.consistent_iff`), and what the search finds otherwise is the least column of the first two
bases that overlap (`Proper.firstShared`).
-/

namespace PauliLowering.Support

/-! ## Listed columns -/

def Lists (groups : List (Basis × List Nat)) (b : Basis) (c : Nat) : Prop :=
  ∃ columns, (b, columns) ∈ groups ∧ c ∈ columns

/-- Each basis at most once, columns that ascend strictly from 1 on, and none on two lists. -/
structure Consistent (groups : List (Basis × List Nat)) : Prop extends Proper groups where
  disjoint : groups.Pairwise fun g h => g.2.Disjoint h.2

section Listed

variable {groups : List (Basis × List Nat)}

theorem listedFor_of_mem (distinct : (groups.map Prod.fst).Nodup) {b : Basis} {columns : List Nat}
    (mem : (b, columns) ∈ groups) : listedFor groups b = columns := by
  rcases listedFor_cases groups b with ⟨_, hother⟩ | hlisted
  · exact absurd rfl (hother _ mem)
  · exact (Prod.ext_iff.mp (List.inj_on_of_nodup_map distinct hlisted mem rfl)).2

theorem listedFor_of_notMem {b : Basis} (other : ∀ g ∈ groups, g.1 ≠ b) :
    listedFor groups b = [] := by
  rcases listedFor_cases groups b with ⟨hnil, _⟩ | hlisted
  · exact hnil
  · exact absurd rfl (other _ hlisted)

theorem mem_collected_iff (distinct : (groups.map Prod.fst).Nodup) {b : Basis} {c : Nat} :
    c ∈ (collected groups).group b ↔ Lists groups b c := by
  rw [group_collected]
  constructor
  · intro hc
    rcases listedFor_cases groups b with ⟨hnil, _⟩ | hlisted
    · simp [hnil] at hc
    · exact ⟨_, hlisted, hc⟩
  · rintro ⟨columns, hmem, hc⟩
    rwa [listedFor_of_mem distinct hmem]

/-- Lists of distinct bases share no column exactly if every column is listed for one basis only. -/
theorem pairwise_disjoint_iff (distinct : (groups.map Prod.fst).Nodup) :
    (groups.Pairwise fun g h => g.2.Disjoint h.2) ↔
      ∀ b b' c, Lists groups b c → Lists groups b' c → b = b' := by
  have hsymm : Std.Symm fun g h : Basis × List Nat => g.2.Disjoint h.2 :=
    ⟨fun _ _ => List.disjoint_symm⟩
  constructor
  · rintro hdisjoint b b' c ⟨columns, hmem, hc⟩ ⟨columns', hmem', hc'⟩
    by_contra hne
    have hpair : (b, columns) ≠ (b', columns') := fun heq => hne (Prod.ext_iff.mp heq).1
    exact hdisjoint.forall hmem hmem' hpair hc hc'
  · intro hone
    have hbases : groups.Pairwise fun g h => g.1 ≠ h.1 := List.pairwise_map.mp distinct
    refine hbases.imp_of_mem ?_
    intro g h hg hh hne c hc hc'
    exact hne (hone g.1 h.1 c ⟨g.2, hg, hc⟩ ⟨h.2, hh, hc'⟩)

theorem Proper.consistent_iff (h : Proper groups) :
    Consistent groups ↔ (collected groups).sharedFault? = none := by
  rw [sharedFault?_eq_none_iff h.ascending_collected]
  simp only [mem_collected_iff h.distinct]
  rw [← pairwise_disjoint_iff h.distinct]
  exact ⟨fun hc => hc.disjoint, fun hd => ⟨h, hd⟩⟩

theorem Consistent.ofGroups_eq (h : Consistent groups) (position : Nat) :
    ofGroups position groups = .ok (collected groups) := by
  rw [ofGroups_of_proper position h.toProper, h.toProper.consistent_iff.mp h]

theorem Consistent.perm {groups' : List (Basis × List Nat)} (h : Consistent groups)
    (reordered : groups'.Perm groups) : Consistent groups' where
  distinct := (reordered.map Prod.fst).nodup_iff.mpr h.distinct
  positive g hg := h.positive g (reordered.mem_iff.mp hg)
  ascending g hg := h.ascending g (reordered.mem_iff.mp hg)
  disjoint := (reordered.pairwise_iff List.disjoint_symm).mpr h.disjoint

/-- The same lists in another order name the same groups. -/
theorem collected_perm {groups' : List (Basis × List Nat)} (distinct : (groups.map Prod.fst).Nodup)
    (reordered : groups'.Perm groups) : collected groups' = collected groups := by
  have hlisted : ∀ b, listedFor groups' b = listedFor groups b := by
    intro b
    rcases listedFor_cases groups' b with ⟨hnil, hother⟩ | hmem
    · rw [hnil, listedFor_of_notMem fun g hg => hother g (reordered.mem_iff.mpr hg)]
    · rw [listedFor_of_mem distinct (reordered.mem_iff.mp hmem)]
  simp only [collected, hlisted]

/-! ## Shared columns -/

/-- The pairs of bases in the order in which they are compared. -/
def basisPairs : List (Basis × Basis) := [(.X, .Y), (.X, .Z), (.Y, .Z)]

/-- The column is the least one that both bases list, and no pair of bases before this one overlaps.
-/
structure FirstShared (groups : List (Basis × List Nat)) (c : Nat) (b other : Basis) : Prop where
  least : IsLeast {d | Lists groups b d ∧ Lists groups other d} c
  first : ∃ before after, basisPairs = before ++ (b, other) :: after ∧
    ∀ p ∈ before, ∀ d, ¬ (Lists groups p.1 d ∧ Lists groups p.2 d)

theorem sharedFault?_eq_findSome? (s : Support) :
    s.sharedFault? = basisPairs.findSome? fun p => s.sharedColumn? p.1 p.2 := by
  simp only [sharedFault?, basisPairs, List.findSome?_cons, List.findSome?_nil]
  cases s.sharedColumn? .X .Y <;> cases s.sharedColumn? .X .Z <;>
    cases s.sharedColumn? .Y .Z <;> rfl

/-- The search in an ascending group finds the least column first. -/
theorem sharedColumn?_eq_some {s : Support} {b other : Basis} {fault : GroupingFault}
    (hasc : ∀ b, (s.group b).Pairwise (· < ·)) (h : s.sharedColumn? b other = some fault) :
    ∃ c, fault = .shared c b other ∧ IsLeast {d | d ∈ s.group b ∧ d ∈ s.group other} c := by
  obtain ⟨c, hfind, rfl⟩ := Option.map_eq_some_iff.mp h
  obtain ⟨hfound, before, after, hsplit, hbefore⟩ := List.find?_eq_some_iff_append.mp hfind
  refine ⟨c, rfl, ⟨by simp [hsplit], (searchAscending_iff (hasc other)).mp hfound⟩, ?_⟩
  rintro d ⟨hd, hother⟩
  have hgroup := hasc b
  rw [hsplit, List.pairwise_append, List.pairwise_cons] at hgroup
  rw [hsplit, List.mem_append, List.mem_cons] at hd
  rcases hd with hd | rfl | hd
  · have hmissed := hbefore d hd
    rw [(searchAscending_iff (hasc other)).mpr hother] at hmissed
    cases hmissed
  · exact Nat.le_refl d
  · exact Nat.le_of_lt (hgroup.2.1.1 d hd)

theorem Proper.firstShared (h : Proper groups) {fault : GroupingFault}
    (found : (collected groups).sharedFault? = some fault) :
    ∃ c b other, fault = .shared c b other ∧ FirstShared groups c b other := by
  rw [sharedFault?_eq_findSome?] at found
  obtain ⟨before, ⟨b, other⟩, after, hpairs, hpair, hbefore⟩ := List.findSome?_eq_some_iff.mp found
  obtain ⟨c, rfl, hleast⟩ := sharedColumn?_eq_some h.ascending_collected hpair
  simp only [mem_collected_iff h.distinct] at hleast
  refine ⟨c, b, other, rfl, hleast, before, after, hpairs, ?_⟩
  rintro p hp d ⟨hd, hd'⟩
  have hnone := (sharedColumn?_eq_none_iff (h.ascending_collected p.2)).mp (hbefore p hp) d
  rw [mem_collected_iff h.distinct, mem_collected_iff h.distinct] at hnone
  exact hnone hd hd'

/-! ## The outcome -/

theorem Proper.exists_firstShared (h : Proper groups) (overlap : ¬ Consistent groups)
    (position : Nat) :
    ∃ c b other, FirstShared groups c b other ∧
      ofGroups position groups = .error (.invalidGrouping position (.shared c b other)) := by
  obtain ⟨fault, hfound⟩ : ∃ fault, (collected groups).sharedFault? = some fault :=
    Option.ne_none_iff_exists'.mp (mt h.consistent_iff.mpr overlap)
  obtain ⟨c, b, other, rfl, hfirst⟩ := h.firstShared hfound
  exact ⟨c, b, other, hfirst, by rw [ofGroups_of_proper position h, hfound]⟩

theorem exists_fault_of_not_consistent (h : ¬ Consistent groups) (position : Nat) :
    ∃ fault, ofGroups position groups = .error (.invalidGrouping position fault) := by
  by_cases hproper : Proper groups
  · obtain ⟨c, b, other, _, herror⟩ := hproper.exists_firstShared h position
    exact ⟨_, herror⟩
  · exact ofGroups_of_not_proper position hproper

theorem ofGroups_eq_ok {position : Nat} {s : Support} (h : ofGroups position groups = .ok s) :
    Consistent groups ∧ s = collected groups := by
  by_cases hconsistent : Consistent groups
  · rw [hconsistent.ofGroups_eq] at h
    exact ⟨hconsistent, (Except.ok.inj h).symm⟩
  · obtain ⟨fault, hfault⟩ := exists_fault_of_not_consistent hconsistent position
    rw [hfault] at h
    cases h

end Listed

/-- **The lists that make a support.** Lists of columns make a support exactly if they are
consistent. Its group for a basis is then the list for it, or empty, whatever the order of the
lists. All other lists are refused at the given position. Where each list is proper by itself and
only columns are shared, the refusal names the least shared column of the first two bases that share
one. -/
theorem groups_accepted_iff (position : Nat) (groups : List (Basis × List Nat)) :
    ((∃ s, ofGroups position groups = .ok s) ↔ Consistent groups) ∧
    (∀ s, ofGroups position groups = .ok s →
      (∀ b columns, (b, columns) ∈ groups → s.group b = columns) ∧
      (∀ b, (∀ g ∈ groups, g.1 ≠ b) → s.group b = []) ∧
      ∀ groups', groups'.Perm groups → ofGroups position groups' = .ok s) ∧
    (¬ Consistent groups →
      ∃ fault, ofGroups position groups = .error (.invalidGrouping position fault)) ∧
    (Proper groups → ¬ Consistent groups → ∃ c b other, FirstShared groups c b other ∧
      ofGroups position groups = .error (.invalidGrouping position (.shared c b other))) := by
  refine ⟨⟨?_, ?_⟩, ?_, ?_, ?_⟩
  · rintro ⟨s, hs⟩
    exact (ofGroups_eq_ok hs).1
  · intro hconsistent
    exact ⟨_, hconsistent.ofGroups_eq position⟩
  · intro s hs
    obtain ⟨hconsistent, rfl⟩ := ofGroups_eq_ok hs
    refine ⟨?_, ?_, ?_⟩
    · intro b columns hmem
      rw [group_collected, listedFor_of_mem hconsistent.distinct hmem]
    · intro b hother
      rw [group_collected, listedFor_of_notMem hother]
    · intro groups' hperm
      rw [(hconsistent.perm hperm).ofGroups_eq, collected_perm hconsistent.distinct hperm]
  · intro hnot
    exact exists_fault_of_not_consistent hnot position
  · intro hproper hnot
    exact hproper.exists_firstShared hnot position

/-- Lists that stand in no order of the bases. In the second sample Y and Z share the columns 2 and
5, but X and Z are compared before them. -/
theorem groups_accepted_iff_samples :
    (Consistent [(.Z, [2, 5]), (.X, [3])] ∧
      ofGroups 4 [(.X, [3]), (.Z, [2, 5])] = .ok ⟨[3], [], [2, 5]⟩) ∧
    FirstShared [(.Z, [2, 5, 6]), (.Y, [2, 5]), (.X, [3, 6])] 6 .X .Z := by
  have hmade : ofGroups 4 [(.Z, [2, 5]), (.X, [3])] = .ok ⟨[3], [], [2, 5]⟩ := rfl
  have hrefused : ofGroups 7 [(.Z, [2, 5, 6]), (.Y, [2, 5]), (.X, [3, 6])] =
      .error (.invalidGrouping 7 (.shared 6 .X .Z)) := rfl
  obtain ⟨haccepted, hgroups, _⟩ := groups_accepted_iff 4 [(.Z, [2, 5]), (.X, [3])]
  obtain ⟨hiff, _, _, hoverlap⟩ :=
    groups_accepted_iff 7 [(.Z, [2, 5, 6]), (.Y, [2, 5]), (.X, [3, 6])]
  refine ⟨⟨haccepted.mp ⟨_, hmade⟩, (hgroups _ hmade).2.2 _ (List.Perm.swap ..)⟩, ?_⟩
  have hnot : ¬ Consistent [(.Z, [2, 5, 6]), (.Y, [2, 5]), (.X, [3, 6])] := by
    intro hconsistent
    obtain ⟨s, hs⟩ := hiff.mpr hconsistent
    cases hrefused.symm.trans hs
  obtain ⟨c, b, other, hfirst, herror⟩ := hoverlap ⟨by decide, by decide, by decide⟩ hnot
  cases hrefused.symm.trans herror
  exact hfirst

end PauliLowering.Support
