import Mathlib.Data.List.Nodup
import Mathlib.Data.List.Perm.Subperm
import PauliLowering.Support

/-!
The invariant of supports, and what the queries of a support mean under it.

`Support.WellFormed` holds of every support that a Pauli string or a list of groups gives
(`Made.wellFormed`). The queries look at part of a group only; under the invariant `basisOf?` is
membership in a group (`basisOf?_eq_some_iff`), and `pivot?` is the maximum of all columns
(`pivot?_eq_some_iff`).
-/

namespace PauliLowering.Support

/-! ## The invariant -/

structure WellFormed (s : Support) : Prop where
  ascending : ∀ b, (s.group b).Pairwise (· < ·)
  positive : ∀ b, ∀ c ∈ s.group b, 0 < c
  disjoint : ∀ {b b' c}, c ∈ s.group b → c ∈ s.group b' → b = b'

/-- The supports that the two constructors give. -/
inductive Made : Support → Prop
  | ofSymbols {position : Nat} {symbols : String} {s : Support}
      (h : ofSymbols position symbols = .ok s) : Made s
  | ofGroups {position : Nat} {groups : List (Basis × List Nat)} {s : Support}
      (h : ofGroups position groups = .ok s) : Made s

theorem group_empty (b : Basis) : ({} : Support).group b = [] := by
  cases b <;> rfl

theorem wellFormed_empty : ({} : Support).WellFormed where
  ascending b := by simp [group_empty]
  positive b c hc := by simp [group_empty] at hc
  disjoint hc _ := by simp [group_empty] at hc

/-! ## Supports of Pauli strings -/

theorem group_cons (s : Support) (column : Nat) (p : Pauli) (b : Basis) :
    (s.cons column p).group b =
      if p.basis? = some b then column :: s.group b else s.group b := by
  cases p <;> cases b <;> rfl

theorem mem_group_cons {s : Support} {column c : Nat} {p : Pauli} {b : Basis} :
    c ∈ (s.cons column p).group b ↔ (p.basis? = some b ∧ c = column) ∨ c ∈ s.group b := by
  rw [group_cons]
  split
  · next hb => simp [hb]
  · next hb => simp [hb]

/-- A new column may come in front when it is smaller than all others. -/
theorem WellFormed.cons {s : Support} (h : s.WellFormed) {column : Nat} (hpos : 0 < column)
    (hlt : ∀ b, ∀ c ∈ s.group b, column < c) (p : Pauli) : (s.cons column p).WellFormed where
  ascending b := by
    rw [group_cons]
    split
    · exact List.pairwise_cons.mpr ⟨hlt b, h.ascending b⟩
    · exact h.ascending b
  positive b c hc := by
    rcases mem_group_cons.mp hc with ⟨_, rfl⟩ | hc
    · exact hpos
    · exact h.positive b c hc
  disjoint := by
    intro b b' c hc hc'
    rcases mem_group_cons.mp hc with ⟨hb, rfl⟩ | hc <;>
      rcases mem_group_cons.mp hc' with ⟨hb', heq⟩ | hc'
    · simpa [hb] using hb'
    · exact absurd (hlt b' _ hc') (Nat.lt_irrefl _)
    · exact absurd (heq ▸ hlt b c hc) (Nat.lt_irrefl _)
    · exact h.disjoint hc hc'

/-- The basis that the symbol at an index writes; none for the identity and past the end. -/
def symbolBasis? (cs : List Char) (i : Nat) : Option Basis :=
  (cs[i]?.bind Pauli.ofSymbol?).bind Pauli.basis?

theorem ofSymbol?_eq_some_iff {c : Char} {p : Pauli} :
    Pauli.ofSymbol? c = some p ↔ c = p.symbol := by
  constructor
  · intro h
    unfold Pauli.ofSymbol? at h
    split at h <;> first | (obtain rfl := Option.some.inj h; rfl) | simp at h
  · rintro rfl
    cases p <;> rfl

theorem symbol_ne_identity (b : Basis) : b.symbol ≠ 'I' := by
  cases b <;> decide

/-- An operator that is not the identity has a basis. -/
theorem exists_basis_of_ne {c : Char} {p : Pauli} (h : Pauli.ofSymbol? c = some p) (hne : c ≠ 'I') :
    ∃ b : Basis, c = b.symbol := by
  rw [ofSymbol?_eq_some_iff] at h
  cases p with
  | I => exact absurd h hne
  | X => exact ⟨.X, h⟩
  | Y => exact ⟨.Y, h⟩
  | Z => exact ⟨.Z, h⟩

theorem symbolBasis?_eq_some_iff {cs : List Char} {i : Nat} {b : Basis} :
    symbolBasis? cs i = some b ↔ cs[i]? = some b.symbol := by
  have hbasis : ∀ p : Pauli, p.basis? = some b ↔ p = b.pauli := by
    intro p
    cases p <;> cases b <;> decide
  simp only [symbolBasis?, Option.bind_eq_some_iff, hbasis, exists_eq_right, ofSymbol?_eq_some_iff]
  rfl

/-- Symbols are known by their bases; a symbol without one is the identity. -/
theorem symbols_eq_of_basis {cs ds : List Char} (hc : ∀ c ∈ cs, ∃ p, Pauli.ofSymbol? c = some p)
    (hd : ∀ d ∈ ds, ∃ p, Pauli.ofSymbol? d = some p) (hlength : cs.length = ds.length)
    (same : ∀ i, symbolBasis? cs i = symbolBasis? ds i) : cs = ds := by
  refine List.ext_getElem hlength ?_
  intro i hi hi'
  obtain ⟨p, hp⟩ := hc _ (List.getElem_mem hi)
  obtain ⟨q, hq⟩ := hd _ (List.getElem_mem hi')
  have hbasis : p.basis? = q.basis? := by
    simpa [symbolBasis?, List.getElem?_eq_getElem hi, List.getElem?_eq_getElem hi', hp, hq]
      using same i
  have hpq : p = q := by
    cases p <;> cases q <;> first | rfl | cases hbasis
  rw [ofSymbol?_eq_some_iff.mp hp, ofSymbol?_eq_some_iff.mp hq, hpq]

theorem ofSymbolsFrom_cons_eq_ok {position column : Nat} {c : Char} {cs : List Char} {s : Support}
    (h : ofSymbolsFrom position column (c :: cs) = .ok s) :
    ∃ p rest, Pauli.ofSymbol? c = some p ∧
      ofSymbolsFrom position (column + 1) cs = .ok rest ∧ s = rest.cons column p := by
  rw [ofSymbolsFrom] at h
  cases hp : Pauli.ofSymbol? c with
  | none => simp [hp] at h
  | some p =>
    cases hrest : ofSymbolsFrom position (column + 1) cs with
    | error e => simp [hp, hrest, Except.map] at h
    | ok rest =>
      simp only [hp, hrest, Except.map, Except.ok.injEq] at h
      exact ⟨p, rest, rfl, rfl, h.symm⟩

theorem mem_group_ofSymbolsFrom {position column : Nat} {cs : List Char} {s : Support}
    (h : ofSymbolsFrom position column cs = .ok s) (b : Basis) (c : Nat) :
    c ∈ s.group b ↔ ∃ i, c = column + i ∧ symbolBasis? cs i = some b := by
  induction cs generalizing column s with
  | nil =>
    obtain rfl : {} = s := by simpa [ofSymbolsFrom] using h
    simp [group_empty, symbolBasis?]
  | cons d cs ih =>
    obtain ⟨p, rest, hp, hrest, rfl⟩ := ofSymbolsFrom_cons_eq_ok h
    rw [mem_group_cons, ih hrest]
    constructor
    · rintro (⟨hb, rfl⟩ | ⟨i, rfl, hi⟩)
      · exact ⟨0, rfl, by simp [symbolBasis?, hp, hb]⟩
      · exact ⟨i + 1, by omega, by simpa [symbolBasis?] using hi⟩
    · rintro ⟨i, rfl, hi⟩
      cases i with
      | zero => exact Or.inl ⟨by simpa [symbolBasis?, hp] using hi, rfl⟩
      | succ i => exact Or.inr ⟨i, by omega, by simpa [symbolBasis?] using hi⟩

theorem wellFormed_ofSymbolsFrom {position column : Nat} {cs : List Char} {s : Support}
    (hpos : 0 < column) (h : ofSymbolsFrom position column cs = .ok s) : s.WellFormed := by
  induction cs generalizing column s with
  | nil =>
    obtain rfl : {} = s := by simpa [ofSymbolsFrom] using h
    exact wellFormed_empty
  | cons d cs ih =>
    obtain ⟨p, rest, _, hrest, rfl⟩ := ofSymbolsFrom_cons_eq_ok h
    refine (ih (by omega) hrest).cons hpos ?_ p
    intro b c hc
    obtain ⟨i, rfl, _⟩ := (mem_group_ofSymbolsFrom hrest b c).mp hc
    omega

theorem mem_group_ofSymbols {position : Nat} {symbols : String} {s : Support}
    (h : ofSymbols position symbols = .ok s) (b : Basis) (c : Nat) :
    c ∈ s.group b ↔ 0 < c ∧ symbolBasis? symbols.toList (c - 1) = some b := by
  rw [mem_group_ofSymbolsFrom h]
  constructor
  · rintro ⟨i, rfl, hi⟩
    exact ⟨by omega, by simpa using hi⟩
  · rintro ⟨hc, hb⟩
    exact ⟨c - 1, by omega, hb⟩

theorem exists_ofSymbolsFrom (position column : Nat) {cs : List Char}
    (h : ∀ c ∈ cs, ∃ p, Pauli.ofSymbol? c = some p) :
    ∃ s, ofSymbolsFrom position column cs = .ok s := by
  induction cs generalizing column with
  | nil => exact ⟨{}, rfl⟩
  | cons c cs ih =>
    obtain ⟨p, hp⟩ := h c (List.mem_cons_self ..)
    obtain ⟨rest, hrest⟩ := ih (column + 1) fun d hd => h d (List.mem_cons_of_mem _ hd)
    exact ⟨rest.cons column p, by simp [ofSymbolsFrom, hp, hrest, Except.map]⟩

theorem exists_ofSymbol?_of_ofSymbolsFrom {position column : Nat} {cs : List Char} {s : Support}
    (h : ofSymbolsFrom position column cs = .ok s) : ∀ c ∈ cs, ∃ p, Pauli.ofSymbol? c = some p := by
  induction cs generalizing column s with
  | nil => simp
  | cons d cs ih =>
    obtain ⟨p, rest, hd, hrest, _⟩ := ofSymbolsFrom_cons_eq_ok h
    intro c hc
    rcases List.mem_cons.mp hc with rfl | hc
    · exact ⟨p, hd⟩
    · exact ih hrest c hc

theorem isAscending_iff {cs : List Nat} : isAscending cs = true ↔ cs.Pairwise (· < ·) := by
  fun_induction isAscending cs with
  | case1 c d cs ih =>
    rw [Bool.and_eq_true, decide_eq_true_eq, ih]
    constructor
    · rintro ⟨hlt, hd⟩
      refine List.pairwise_cons.mpr ⟨?_, hd⟩
      intro e he
      rcases List.mem_cons.mp he with rfl | he
      · exact hlt
      · exact Nat.lt_trans hlt ((List.pairwise_cons.mp hd).1 e he)
    · intro h
      obtain ⟨hc, hd⟩ := List.pairwise_cons.mp h
      exact ⟨hc d List.mem_cons_self, hd⟩
  | case2 cs hcs =>
    match cs, hcs with
    | [], _ => simp
    | [c], _ => simp
    | c :: d :: cs, hcs => exact absurd rfl (hcs c d cs)

/-- The search that gives up at the first larger column misses none in an ascending list. -/
theorem searchAscending_iff {column : Nat} {cs : List Nat} (h : cs.Pairwise (· < ·)) :
    searchAscending column cs = true ↔ column ∈ cs := by
  induction cs with
  | nil => simp [searchAscending]
  | cons c cs ih =>
    obtain ⟨hc, hcs⟩ := List.pairwise_cons.mp h
    rw [searchAscending]
    split
    · next hlt => simp [ih hcs, show column ≠ c by omega]
    · next hge =>
      have hmem : column ∉ cs := fun hm => hge (hc column hm)
      rw [beq_iff_eq, List.mem_cons, or_iff_left hmem]
      exact eq_comm

/-- Lists without a fault of their own: each basis once, with columns that ascend strictly from 1
on. -/
structure Proper (groups : List (Basis × List Nat)) : Prop where
  distinct : (groups.map Prod.fst).Nodup
  positive : ∀ g ∈ groups, 0 ∉ g.2
  ascending : ∀ g ∈ groups, g.2.Pairwise (· < ·)

theorem proper_cons_iff {b : Basis} {columns : List Nat} {groups : List (Basis × List Nat)} :
    Proper ((b, columns) :: groups) ↔
      (∀ g ∈ groups, g.1 ≠ b) ∧ 0 ∉ columns ∧ columns.Pairwise (· < ·) ∧ Proper groups := by
  constructor
  · rintro ⟨hdistinct, hpositive, hascending⟩
    rw [List.map_cons, List.nodup_cons] at hdistinct
    obtain ⟨hzero, hpositive⟩ := List.forall_mem_cons.mp hpositive
    obtain ⟨hasc, hascending⟩ := List.forall_mem_cons.mp hascending
    refine ⟨?_, hzero, hasc, hdistinct.2, hpositive, hascending⟩
    rintro g hg rfl
    exact hdistinct.1 (List.mem_map.mpr ⟨g, hg, rfl⟩)
  · rintro ⟨hother, hzero, hasc, hdistinct, hpositive, hascending⟩
    refine ⟨?_, List.forall_mem_cons.mpr ⟨hzero, hpositive⟩,
      List.forall_mem_cons.mpr ⟨hasc, hascending⟩⟩
    rw [List.map_cons, List.nodup_cons]
    refine ⟨?_, hdistinct⟩
    intro hb
    obtain ⟨g, hg, heq⟩ := List.mem_map.mp hb
    exact hother g hg heq

theorem listFault?_eq_none_iff {seen : List Basis} {groups : List (Basis × List Nat)} :
    listFault? seen groups = none ↔ (∀ g ∈ groups, g.1 ∉ seen) ∧ Proper groups := by
  induction groups generalizing seen with
  | nil => simp [listFault?, Proper.mk]
  | cons g groups ih =>
    obtain ⟨b, columns⟩ := g
    have hseen : (∀ g ∈ groups, g.1 ∉ b :: seen) ↔
        (∀ g ∈ groups, g.1 ≠ b) ∧ ∀ g ∈ groups, g.1 ∉ seen := by
      simp only [List.mem_cons, not_or, forall_and, ne_eq]
    rw [listFault?, proper_cons_iff, List.forall_mem_cons, ← isAscending_iff]
    split_ifs with hrepeated hzero hasc
    · simp [List.contains_iff_mem.mp hrepeated]
    · simp [List.contains_iff_mem.mp hzero]
    · simp_all
    · rw [ih, hseen]
      simp_all [and_assoc, and_left_comm]

theorem Proper.length_le {groups : List (Basis × List Nat)} (h : Proper groups) :
    groups.length ≤ 3 := by
  have hsubset : groups.map Prod.fst ⊆ Basis.all := by
    intro b _
    cases b <;> decide
  have hle := (h.distinct.subperm hsubset).length_le
  rwa [List.length_map] at hle

theorem listedFor_cases (groups : List (Basis × List Nat)) (b : Basis) :
    (listedFor groups b = [] ∧ ∀ g ∈ groups, g.1 ≠ b) ∨ (b, listedFor groups b) ∈ groups := by
  unfold listedFor
  cases hf : groups.find? fun g => g.1 == b with
  | none => exact Or.inl ⟨rfl, by simpa using hf⟩
  | some g =>
    obtain ⟨b', columns⟩ := g
    have hb : b' = b := by simpa using List.find?_some hf
    exact Or.inr (hb ▸ List.mem_of_find?_eq_some hf)

/-- The groups that the lists name, whether or not they are consistent. -/
def collected (groups : List (Basis × List Nat)) : Support :=
  ⟨listedFor groups .X, listedFor groups .Y, listedFor groups .Z⟩

theorem group_collected (groups : List (Basis × List Nat)) (b : Basis) :
    (collected groups).group b = listedFor groups b := by
  cases b <;> rfl

theorem Proper.ascending_collected {groups : List (Basis × List Nat)} (h : Proper groups)
    (b : Basis) : ((collected groups).group b).Pairwise (· < ·) := by
  rw [group_collected]
  rcases listedFor_cases groups b with ⟨hnil, _⟩ | hmem
  · simp [hnil]
  · exact h.ascending _ hmem

theorem Proper.positive_collected {groups : List (Basis × List Nat)} (h : Proper groups)
    (b : Basis) : ∀ c ∈ (collected groups).group b, 0 < c := by
  intro c hc
  rw [group_collected] at hc
  rcases listedFor_cases groups b with ⟨hnil, _⟩ | hmem
  · simp [hnil] at hc
  · exact Nat.pos_of_ne_zero fun hz => h.positive _ hmem (hz ▸ hc)

/-- Lists without a fault of their own can only share columns. -/
theorem ofGroups_of_proper (position : Nat) {groups : List (Basis × List Nat)} (h : Proper groups) :
    ofGroups position groups =
      match (collected groups).sharedFault? with
      | some fault => .error (.invalidGrouping position fault)
      | none => .ok (collected groups) := by
  have hlists : listFault? [] groups = none := listFault?_eq_none_iff.mpr ⟨by simp, h⟩
  have hfew : ¬ 3 < groups.length := Nat.not_lt.mpr h.length_le
  simp only [ofGroups, if_neg hfew, hlists]
  rfl

theorem ofGroups_of_not_proper (position : Nat) {groups : List (Basis × List Nat)}
    (h : ¬ Proper groups) :
    ∃ fault, ofGroups position groups = .error (.invalidGrouping position fault) := by
  obtain ⟨fault, hfault⟩ : ∃ fault, listFault? [] groups = some fault := by
    apply Option.ne_none_iff_exists'.mp
    exact fun hnone => h (listFault?_eq_none_iff.mp hnone).2
  simp only [ofGroups, hfault]
  split_ifs
  · exact ⟨_, rfl⟩
  · exact ⟨fault, rfl⟩

theorem sharedColumn?_eq_none_iff {s : Support} {b other : Basis}
    (hasc : (s.group other).Pairwise (· < ·)) :
    s.sharedColumn? b other = none ↔ ∀ c ∈ s.group b, c ∉ s.group other := by
  simp only [sharedColumn?, Option.map_eq_none_iff, List.find?_eq_none, searchAscending_iff hasc]

theorem sharedFault?_eq_none_iff {s : Support} (hasc : ∀ b, (s.group b).Pairwise (· < ·)) :
    s.sharedFault? = none ↔ ∀ b b' c, c ∈ s.group b → c ∈ s.group b' → b = b' := by
  simp only [sharedFault?, Option.orElse_eq_orElse, Option.orElse_eq_or, Option.or_eq_none_iff,
    sharedColumn?_eq_none_iff (hasc _)]
  constructor
  · rintro ⟨hxy, hxz, hyz⟩ b b' c hc hc'
    have xy := hxy c
    have xz := hxz c
    have yz := hyz c
    cases b <;> cases b' <;> first | rfl | (exfalso; tauto)
  · intro h
    refine ⟨?_, ?_, ?_⟩
    all_goals
      intro c hc hc'
      cases h _ _ c hc hc'

theorem wellFormed_ofGroups {position : Nat} {groups : List (Basis × List Nat)} {s : Support}
    (h : ofGroups position groups = .ok s) : s.WellFormed := by
  by_cases hproper : Proper groups
  · rw [ofGroups_of_proper position hproper] at h
    split at h
    · cases h
    · next hshared =>
      obtain rfl := Except.ok.inj h
      have hdisjoint := (sharedFault?_eq_none_iff hproper.ascending_collected).mp hshared
      exact ⟨hproper.ascending_collected, hproper.positive_collected, hdisjoint _ _ _⟩
  · obtain ⟨fault, hfault⟩ := ofGroups_of_not_proper position hproper
    rw [hfault] at h
    cases h

theorem Made.wellFormed {s : Support} (h : s.Made) : s.WellFormed := by
  cases h with
  | ofSymbols h => exact wellFormed_ofSymbolsFrom Nat.one_pos h
  | ofGroups h => exact wellFormed_ofGroups h

/-! ## Queries -/

theorem basisOf?_eq_some_iff {s : Support} (h : s.WellFormed) {c : Nat} {b : Basis} :
    s.basisOf? c = some b ↔ c ∈ s.group b := by
  have hsearch : ∀ b, searchAscending c (s.group b) = true ↔ c ∈ s.group b :=
    fun b => searchAscending_iff (h.ascending b)
  constructor
  · intro hb
    have hfound := List.find?_some (p := fun b => searchAscending c (s.group b)) hb
    exact (hsearch b).mp hfound
  · intro hc
    have hother : ∀ b', b' ≠ b → searchAscending c (s.group b') = false := by
      intro b' hne
      rw [Bool.eq_false_iff, ne_eq, hsearch]
      exact fun hc' => hne (h.disjoint hc' hc)
    have hself := (hsearch b).mpr hc
    cases b <;> simp_all [basisOf?, Basis.all]

theorem basisOf?_zero {s : Support} (h : s.WellFormed) : s.basisOf? 0 = none := by
  rw [Option.eq_none_iff_forall_ne_some]
  intro b hb
  exact absurd (h.positive b 0 ((basisOf?_eq_some_iff h).mp hb)) (Nat.lt_irrefl 0)

theorem basisOf?_ofSymbols {position : Nat} {symbols : String} {s : Support}
    (h : ofSymbols position symbols = .ok s) (i : Nat) :
    s.basisOf? (i + 1) = symbolBasis? symbols.toList i := by
  ext b
  rw [basisOf?_eq_some_iff (Made.ofSymbols h).wellFormed, mem_group_ofSymbols h]
  simp

theorem exists_pivot? {s : Support} {b : Basis} {c : Nat} (hc : c ∈ s.group b) :
    ∃ m, s.pivot? = some m := by
  rw [← Option.isSome_iff_exists, Option.isSome_iff_ne_none, pivot?, ne_eq, List.max?_eq_none_iff]
  have hlast := List.getLast?_eq_some_getLast (List.ne_nil_of_mem hc)
  refine List.ne_nil_of_mem (List.mem_filterMap.mpr ⟨b, ?_, hlast⟩)
  cases b <;> decide

theorem mem_columns {s : Support} {b : Basis} {c : Nat} :
    (b, c) ∈ s.columns ↔ c ∈ s.group b := by
  cases b <;> simp [columns, Basis.all, group]

theorem length_columns (s : Support) : s.columns.length = s.size := by
  simp [columns, Basis.all, group, size, Nat.add_assoc]

theorem nodup_columns {s : Support} (h : s.WellFormed) : (s.columns.map Prod.snd).Nodup := by
  have hcolumns : s.columns.map Prod.snd = s.x ++ (s.y ++ s.z) := by
    simp [columns, Basis.all, group, Function.comp_def]
  have hgroup : ∀ b, (s.group b).Nodup := fun b => (h.ascending b).imp Nat.ne_of_lt
  have hdisj : ∀ b b' : Basis, b ≠ b' → (s.group b).Disjoint (s.group b') := by
    intro b b' hne c hc hc'
    exact hne (h.disjoint hc hc')
  rw [hcolumns]
  refine (hgroup .X).append ((hgroup .Y).append (hgroup .Z) (hdisj .Y .Z (by decide))) ?_
  exact List.disjoint_append_right.mpr ⟨hdisj .X .Y (by decide), hdisj .X .Z (by decide)⟩

theorem le_getLast_of_ascending {cs : List Nat} (h : cs.Pairwise (· < ·)) {m : Nat}
    (hm : cs.getLast? = some m) : ∀ c ∈ cs, c ≤ m := by
  obtain ⟨front, rfl⟩ := List.getLast?_eq_some_iff.mp hm
  intro c hc
  rcases List.mem_append.mp hc with hc | hc
  · exact Nat.le_of_lt ((List.pairwise_append.mp h).2.2 c hc m (by simp))
  · simp_all

theorem pivot?_eq_some_iff {s : Support} (h : s.WellFormed) {m : Nat} :
    s.pivot? = some m ↔ (∃ b, m ∈ s.group b) ∧ ∀ b, ∀ c ∈ s.group b, c ≤ m := by
  -- The pivot is the largest of the last columns, and a last column is the largest of its group.
  have hlast : ∀ c, c ∈ Basis.all.filterMap (fun b => (s.group b).getLast?) ↔
      ∃ b, (s.group b).getLast? = some c := by
    intro c
    simp only [List.mem_filterMap]
    constructor
    · rintro ⟨b, _, hb⟩
      exact ⟨b, hb⟩
    · rintro ⟨b, hb⟩
      exact ⟨b, by cases b <;> decide, hb⟩
  have hbelow : ∀ b, ∀ c ∈ s.group b, ∃ d, (s.group b).getLast? = some d ∧ c ≤ d := by
    intro b c hc
    have hne : s.group b ≠ [] := List.ne_nil_of_mem hc
    exact ⟨_, List.getLast?_eq_some_getLast hne,
      le_getLast_of_ascending (h.ascending b) (List.getLast?_eq_some_getLast hne) c hc⟩
  rw [pivot?, List.max?_eq_some_iff]
  constructor
  · rintro ⟨hmem, hmax⟩
    obtain ⟨b, hb⟩ := (hlast m).mp hmem
    refine ⟨⟨b, List.mem_of_getLast? hb⟩, ?_⟩
    intro b' c hc
    obtain ⟨d, hd, hle⟩ := hbelow b' c hc
    exact Nat.le_trans hle (hmax d ((hlast d).mpr ⟨b', hd⟩))
  · rintro ⟨⟨b, hb⟩, hmax⟩
    constructor
    · obtain ⟨d, hd, hle⟩ := hbelow b m hb
      have hdm : d = m := Nat.le_antisymm (hmax b d (List.mem_of_getLast? hd)) hle
      exact (hlast m).mpr ⟨b, hdm ▸ hd⟩
    · intro c hc
      obtain ⟨b', hb'⟩ := (hlast c).mp hc
      exact hmax b' c (List.mem_of_getLast? hb')

end PauliLowering.Support
