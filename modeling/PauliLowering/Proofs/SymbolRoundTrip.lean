import PauliLowering.Proofs.LoweringDomain

/-!
Supports and the Pauli strings that write them.

The string of a support is written column by column over a row of identities. No column is written
twice and none lies outside the row (`foldlM_write?`), so each place holds the basis of its column
(`symbolBasis?_toSymbols`). Both directions follow: reading the string back gives the support
(`ofSymbols_toSymbols`), and the support of a string gives the string, up to identities at its end
(`toSymbols_ofSymbols`).
-/

namespace PauliLowering.Support

/-! ## Writing columns -/

def blank (s : Support) (numQubits : Nat) : List Char :=
  List.replicate (max numQubits (s.pivot?.getD 0)) 'I'

def write (cs : List Char) (entry : Basis × Nat) : List Char :=
  cs.set (entry.2 - 1) entry.1.symbol

def write? (cs : List Char) (entry : Basis × Nat) : Option (List Char) :=
  if 0 < entry.2 ∧ entry.2 ≤ cs.length then some (write cs entry) else none

theorem toList_toSymbols (s : Support) (numQubits : Nat) :
    (s.toSymbols numQubits).toList = s.columns.foldl write (s.blank numQubits) := by
  rw [toSymbols, String.toList_ofList]
  rfl

section Rows

variable {entries : List (Basis × Nat)} {cs : List Char} {b : Basis} {i : Nat}

theorem length_foldl_write : (entries.foldl write cs).length = cs.length := by
  induction entries generalizing cs with
  | nil => rfl
  | cons entry entries ih => rw [List.foldl_cons, ih, write, List.length_set]

theorem foldlM_write? (bounds : ∀ entry ∈ entries, 0 < entry.2 ∧ entry.2 ≤ cs.length) :
    entries.foldlM write? cs = some (entries.foldl write cs) := by
  induction entries generalizing cs with
  | nil => rfl
  | cons entry entries ih =>
    obtain ⟨hentry, hentries⟩ := List.forall_mem_cons.mp bounds
    have hlength : (write cs entry).length = cs.length := List.length_set
    rw [List.foldlM_cons, write?, if_pos hentry, Option.bind_eq_bind, Option.bind_some,
      ih (hlength ▸ hentries), List.foldl_cons]

theorem getElem?_foldl_write_of_notMem (positive : ∀ entry ∈ entries, 0 < entry.2)
    (absent : ∀ b, (b, i + 1) ∉ entries) : (entries.foldl write cs)[i]? = cs[i]? := by
  induction entries generalizing cs with
  | nil => rfl
  | cons entry entries ih =>
    obtain ⟨hentry, hentries⟩ := List.forall_mem_cons.mp positive
    have hne : entry.2 - 1 ≠ i := by
      intro heq
      have hcolumn : entry.2 = i + 1 := by omega
      exact absent entry.1 (hcolumn ▸ List.mem_cons_self)
    rw [List.foldl_cons, ih hentries fun b hb => absent b (List.mem_cons_of_mem _ hb), write,
      List.getElem?_set_ne hne]

theorem getElem?_foldl_write_of_mem (positive : ∀ entry ∈ entries, 0 < entry.2)
    (nodup : (entries.map Prod.snd).Nodup) (inside : i < cs.length) (mem : (b, i + 1) ∈ entries) :
    (entries.foldl write cs)[i]? = some b.symbol := by
  induction entries generalizing cs with
  | nil => cases mem
  | cons entry entries ih =>
    obtain ⟨_, hentries⟩ := List.forall_mem_cons.mp positive
    obtain ⟨hfresh, hnodup⟩ := List.nodup_cons.mp nodup
    rcases List.mem_cons.mp mem with rfl | hmem
    · have habsent : ∀ b', (b', i + 1) ∉ entries := fun b' hb' =>
        hfresh (List.mem_map.mpr ⟨_, hb', rfl⟩)
      rw [List.foldl_cons, getElem?_foldl_write_of_notMem hentries habsent, write]
      exact List.getElem?_set_self inside
    · exact ih hentries hnodup (by rwa [write, List.length_set]) hmem

theorem mem_foldl_write {c : Char} (mem : c ∈ entries.foldl write cs) :
    c ∈ cs ∨ ∃ b : Basis, c = b.symbol := by
  induction entries generalizing cs with
  | nil => exact .inl mem
  | cons entry entries ih =>
    rcases ih mem with hc | hc
    · rcases List.mem_or_eq_of_mem_set hc with hc | rfl
      · exact .inl hc
      · exact .inr ⟨entry.1, rfl⟩
    · exact .inr hc

end Rows

/-! ## The string of a support -/

section Strings

variable {s s' : Support}

theorem length_toSymbols (numQubits : Nat) :
    (s.toSymbols numQubits).toList.length = max numQubits (s.pivot?.getD 0) := by
  rw [toList_toSymbols, length_foldl_write, blank, List.length_replicate]

theorem column_bounds (h : s.WellFormed) (numQubits : Nat) :
    ∀ entry ∈ s.columns, 0 < entry.2 ∧ entry.2 ≤ (s.blank numQubits).length := by
  rintro ⟨b, c⟩ hmem
  have hc := mem_columns.mp hmem
  obtain ⟨m, hm⟩ := exists_pivot? hc
  have hle := ((pivot?_eq_some_iff h).mp hm).2 b c hc
  refine ⟨h.positive b c hc, ?_⟩
  rw [blank, List.length_replicate, hm, Option.getD_some]
  exact Nat.le_trans hle (Nat.le_max_right ..)

theorem ofSymbol?_of_mem_toSymbols {numQubits : Nat} {c : Char}
    (mem : c ∈ (s.toSymbols numQubits).toList) : ∃ p, Pauli.ofSymbol? c = some p := by
  rw [toList_toSymbols] at mem
  rcases mem_foldl_write mem with hblank | ⟨b, rfl⟩
  · obtain rfl := List.eq_of_mem_replicate hblank
    exact ⟨.I, rfl⟩
  · exact ⟨b.pauli, ofSymbol?_eq_some_iff.mpr rfl⟩

theorem symbol_inj {b b' : Basis} (h : b.symbol = b'.symbol) : b = b' := by
  cases b <;> cases b' <;> first | rfl | cases h

/-- Each place of the string holds the basis of its column. -/
theorem symbolBasis?_toSymbols (h : s.WellFormed) (numQubits i : Nat) :
    symbolBasis? (s.toSymbols numQubits).toList i = s.basisOf? (i + 1) := by
  have hbounds := column_bounds h numQubits
  have hpositive := fun entry hentry => (hbounds entry hentry).1
  ext b
  rw [symbolBasis?_eq_some_iff, basisOf?_eq_some_iff h, ← mem_columns, toList_toSymbols]
  constructor
  · intro hsymbol
    by_cases hcolumn : ∃ b', (b', i + 1) ∈ s.columns
    · obtain ⟨b', hb'⟩ := hcolumn
      rw [getElem?_foldl_write_of_mem hpositive (nodup_columns h) (hbounds _ hb').2 hb'] at hsymbol
      exact symbol_inj (Option.some.inj hsymbol) ▸ hb'
    · rw [getElem?_foldl_write_of_notMem hpositive (not_exists.mp hcolumn)] at hsymbol
      have hidentity := List.eq_of_mem_replicate (List.mem_of_getElem? hsymbol)
      exact absurd hidentity (symbol_ne_identity b)
  · intro hmem
    exact getElem?_foldl_write_of_mem hpositive (nodup_columns h) (hbounds _ hmem).2 hmem

/-- A support is known by the bases of its columns. -/
theorem eq_of_basisOf? (h : s.WellFormed) (h' : s'.WellFormed)
    (same : ∀ c, s.basisOf? c = s'.basisOf? c) : s = s' := by
  have hgroup : ∀ b, s.group b = s'.group b := by
    intro b
    refine (h.ascending b).eq_of_mem_iff (h'.ascending b) ?_
    intro c
    rw [← basisOf?_eq_some_iff h, ← basisOf?_eq_some_iff h', same]
  obtain ⟨x, y, z⟩ := s
  obtain ⟨x', y', z'⟩ := s'
  obtain rfl : x = x' := hgroup .X
  obtain rfl : y = y' := hgroup .Y
  obtain rfl : z = z' := hgroup .Z
  rfl

theorem ofSymbols_toSymbols (h : s.WellFormed) (position numQubits : Nat) :
    ofSymbols position (s.toSymbols numQubits) = .ok s := by
  have hletters : ∀ c ∈ (s.toSymbols numQubits).toList, ∃ p, Pauli.ofSymbol? c = some p :=
    fun c hc => ofSymbol?_of_mem_toSymbols hc
  obtain ⟨s', hs'⟩ := exists_ofSymbolsFrom position 1 hletters
  have hwf' := (Made.ofSymbols hs').wellFormed
  have hsame : s' = s := by
    refine eq_of_basisOf? hwf' h ?_
    rintro (_ | i)
    · rw [basisOf?_zero h, basisOf?_zero hwf']
    · rw [basisOf?_ofSymbols hs', symbolBasis?_toSymbols h]
  rw [ofSymbols, hs', hsame]

end Strings

/-! ## The support of a string -/

theorem symbolBasis?_append_identities (cs : List Char) (k i : Nat) :
    symbolBasis? (cs ++ List.replicate k 'I') i = symbolBasis? cs i := by
  ext b
  rw [symbolBasis?_eq_some_iff, symbolBasis?_eq_some_iff]
  by_cases hi : i < cs.length
  · rw [List.getElem?_append_left hi]
  · rw [List.getElem?_append_right (Nat.le_of_not_lt hi),
      List.getElem?_eq_none (Nat.le_of_not_lt hi)]
    simp only [reduceCtorEq, iff_false]
    intro hsymbol
    exact symbol_ne_identity b (List.eq_of_mem_replicate (List.mem_of_getElem? hsymbol))

/-- What is cut off a string after its last symbol other than the identity. -/
theorem exists_identities (cs : List Char) :
    ∃ k, cs = cs.rdropWhile (· == 'I') ++ List.replicate k 'I' := by
  refine ⟨(cs.rtakeWhile (· == 'I')).length, ?_⟩
  have hidentities : cs.rtakeWhile (· == 'I') =
      List.replicate (cs.rtakeWhile (· == 'I')).length 'I' := by
    rw [List.eq_replicate_iff]
    exact ⟨rfl, fun c hc => by simpa using List.mem_rtakeWhile_imp hc⟩
  rw [← hidentities, List.rdropWhile_append_rtakeWhile]

theorem rightpad_rdropWhile (cs : List Char) :
    (cs.rdropWhile (· == 'I')).rightpad cs.length 'I' = cs := by
  obtain ⟨k, hk⟩ := exists_identities cs
  have hlength : cs.length = (cs.rdropWhile (· == 'I')).length + k := by
    simpa using congrArg List.length hk
  rw [List.rightpad, hlength, Nat.add_sub_cancel_left, ← hk]

theorem symbolBasis?_rdropWhile (cs : List Char) (i : Nat) :
    symbolBasis? (cs.rdropWhile (· == 'I')) i = symbolBasis? cs i := by
  obtain ⟨k, hk⟩ := exists_identities cs
  conv_rhs => rw [hk]
  rw [symbolBasis?_append_identities]

theorem toSymbols_ofSymbols {position : Nat} {symbols : String} {s : Support}
    (h : ofSymbols position symbols = .ok s) (numQubits : Nat) :
    (s.toSymbols numQubits).toList =
      (symbols.toList.rdropWhile (· == 'I')).rightpad (max numQubits (s.pivot?.getD 0)) 'I' := by
  have hletters := exists_ofSymbol?_of_ofSymbolsFrom h
  refine symbols_eq_of_basis (fun c => ofSymbol?_of_mem_toSymbols) ?_ ?_ ?_
  · intro c hc
    rcases List.mem_append.mp hc with hc | hc
    · exact hletters c ((List.rdropWhile_prefix _ _).subset hc)
    · obtain rfl := List.eq_of_mem_replicate hc
      exact ⟨.I, rfl⟩
  · rw [length_toSymbols, List.length_rightpad, getD_pivot?_ofSymbols h]
    exact (Nat.max_eq_left (Nat.le_max_right ..)).symm
  · intro i
    rw [symbolBasis?_toSymbols (Made.ofSymbols h).wellFormed, basisOf?_ofSymbols h, List.rightpad,
      symbolBasis?_append_identities, symbolBasis?_rdropWhile]

theorem toSymbols_length_ofSymbols {position : Nat} {symbols : String} {s : Support}
    (h : ofSymbols position symbols = .ok s) : s.toSymbols symbols.length = symbols := by
  apply String.toList_inj.mp
  have hle := lastColumn_le symbols.toList
  rw [toSymbols_ofSymbols h, getD_pivot?_ofSymbols h, ← String.length_toList, Nat.max_eq_left hle,
    rightpad_rdropWhile]

/-- **Strings and supports are inverse to each other.** Every string of the four letters has a
support. The string of this support in `n` columns is the given one, cut after its last symbol other
than the identity and filled with identities up to `n` or the pivot; in as many columns as there are
symbols it is the given one itself. Every support that a string or a list of groups gives is read
back from its string, and each of its columns is written inside the string. -/
theorem symbols_round_trip :
    (∀ position (symbols : String), (∀ c ∈ symbols.toList, c ∈ pauliLetters) →
      ∃ s, ofSymbols position symbols = .ok s ∧ s.toSymbols symbols.length = symbols ∧
        ∀ n, (s.toSymbols n).toList =
          (symbols.toList.rdropWhile (· == 'I')).rightpad (max n (s.pivot?.getD 0)) 'I') ∧
    ∀ s : Support, s.Made → ∀ n,
      (∀ position, ofSymbols position (s.toSymbols n) = .ok s) ∧
        s.columns.foldlM write? (s.blank n) = some (s.toSymbols n).toList := by
  constructor
  · intro position symbols letters
    obtain ⟨s, hs⟩ := exists_ofSymbolsFrom position 1
      fun c hc => mem_pauliLetters_iff.mp (letters c hc)
    exact ⟨s, hs, toSymbols_length_ofSymbols hs, toSymbols_ofSymbols hs⟩
  · intro s made n
    have hwf := made.wellFormed
    refine ⟨fun position => ofSymbols_toSymbols hwf position n, ?_⟩
    rw [toList_toSymbols, foldlM_write? (column_bounds hwf n)]

/-- A string cut to its pivot and brought back to its length, and groups in more columns than
needed. -/
theorem symbols_round_trip_ixzi :
    (∃ s, ofSymbols 1 "IXZI" = .ok s ∧ s.toSymbols 4 = "IXZI" ∧
      (s.toSymbols 0).toList = ['I', 'X', 'Z']) ∧
      ofSymbols 2 (toSymbols ⟨[2], [], [4]⟩ 6) = .ok ⟨[2], [], [4]⟩ := by
  have hgroups : ofGroups 3 [(.Z, [4]), (.X, [2])] = .ok ⟨[2], [], [4]⟩ := rfl
  have hletters : ∀ c ∈ "IXZI".toList, c ∈ pauliLetters := by simp [pauliLetters]
  obtain ⟨s, hs, hself, hcut⟩ := symbols_round_trip.1 1 "IXZI" hletters
  obtain rfl : ⟨[2], [], [3]⟩ = s := Except.ok.inj hs
  exact ⟨⟨_, hs, hself, (hcut 0).trans rfl⟩, (symbols_round_trip.2 _ (.ofGroups hgroups) 6).1 2⟩

end PauliLowering.Support
