import StackGraph.Proofs.NetworkHistories

/-!
# How state numbers are checked

The states of a network have the numbers below its size. Every operation looks a state up by the low
32 bits of the number that it is given, so it is the cut number that is checked. A number below
`2 ^ 32` is checked as it stands. A larger one is misread when its low bits are the number of a
state: it is accepted, and it stands for that state.

* `Network.ReadsBy`, `Network.ConnectsBy` -- how the operations answer when the numbers that are
  known are given by a predicate;
* `Network.Misread`, `Network.misread_of_pos` -- numbers that are accepted and are no state, and
  that every network with states has one;
* `Network.reads_index`, `Network.connects_index` -- **the cut number is what is checked**;
* `Network.reads_toNat_iff`, `Network.connects_toNat_iff` -- **the number itself is checked exactly
  when it is not misread**;
* `Network.built_checks_cut_numbers` -- the check of a network that was built by any changes.
-/

namespace StackGraph

namespace Network

/-- The state number that has the low 32 bits of `s`, and no others. -/
def cut (s : State) : State := s.toUInt32.toUInt64

/-- The number is no state of a network of `size` states, and its low bits are. -/
def Misread (size : Nat) (s : State) : Prop := size ≤ s.toNat ∧ index s < size

/-- The number of one state is checked: the lookups fail, and name it, exactly when it is not
    known. -/
structure ReadsBy (net : Network) (known : State → Prop) (s : State) : Prop where
  ruleOf : ∀ e, net.ruleOf s = .error e ↔ ¬ known s ∧ e = .unknownState s
  transitions : ∀ e, net.transitions s = .error e ↔ ¬ known s ∧ e = .unknownState s
  follow : ∀ u, net.follow s = .error (.unknownState u) ↔ ¬ known s ∧ u = s

/-- The numbers of a new transition are checked: it is added exactly when both are known. Else the
    error names the first that is not, and the network stays as it was. -/
structure ConnectsBy (net : Network) (known : State → Prop) (s t : State)
    (transition : Transition) : Prop where
  accepted : (∃ net', net.addTransition s t transition = .ok net') ↔ known s ∧ known t
  source : ¬ known s → net.addTransition s t transition = .error (.unknownState s)
  target : known s → ¬ known t → net.addTransition s t transition = .error (.unknownState t)
  kept : ¬ (known s ∧ known t) → net.change (.transition s t transition) = net

variable {net : Network} {s t : State} {transition : Transition} {known known' : State → Prop}

/-! ## 1. Cut numbers -/

@[simp] theorem toNat_cut (s : State) : (cut s).toNat = index s := by simp [cut, index]

@[simp] theorem index_cut (s : State) : index (cut s) = index s := by simp [cut, index]

/-- Cutting makes no number larger. -/
theorem index_le (s : State) : index s ≤ s.toNat := by
  rw [index_eq_mod]
  exact Nat.mod_le _ _

/-- A number of 32 bits is its own index. -/
theorem index_of_lt (h : s.toNat < 0x100000000) : index s = s.toNat := by
  rw [index_eq_mod]
  exact Nat.mod_eq_of_lt h

/-- Only a number of more than 32 bits is misread. -/
theorem Misread.le {size : Nat} (h : Misread size s) : 0x100000000 ≤ s.toNat := by
  obtain ⟨large, low⟩ := h
  rcases Nat.lt_or_ge s.toNat 0x100000000 with small | fits
  · have same := index_of_lt small
    omega
  · exact fits

/-- A number is read as it stands exactly when it is not misread. -/
theorem not_misread_iff {size : Nat} :
    ¬ Misread size s ↔ (index s < size ↔ s.toNat < size) := by
  have le := index_le s
  unfold Misread
  omega

/-- **Every network with states misreads a number**, as long as a state number of 32 bits fits each
    state. -/
theorem misread_of_pos {size : Nat} (pos : 0 < size) (fits : size ≤ 0x100000000) :
    Misread size 0x100000000 := ⟨fits, pos⟩

/-! ## 2. What is checked -/

/-- A known state has the transitions out of its index. -/
theorem transitions_of_lt (h : index s < net.size) :
    net.transitions s =
      .ok ((net.edges.filter (·.source = index s)).map fun e => (e.target, e.transition)) := by
  obtain ⟨_, knows⟩ := ruleOf_of_lt h
  unfold transitions
  rw [knows]
  rfl

theorem transitions_of_le (h : net.size ≤ index s) :
    net.transitions s = .error (.unknownState s) := by
  unfold transitions
  rw [ruleOf_of_le h]
  rfl

theorem follow_of_le (h : net.size ≤ index s) : net.follow s = .error (.unknownState s) := by
  unfold follow
  rw [transitions_of_le h]
  rfl

/-- The follow state of a known state is found or there is none: the number is not the reason. -/
theorem follow_ne_unknown (h : index s < net.size) (u : State) :
    net.follow s ≠ .error (.unknownState u) := by
  rw [follow_of_lt h]
  split <;> simp

/-- **The lookups of a state check its cut number.** -/
theorem reads_index (net : Network) (s : State) : net.ReadsBy (index · < net.size) s where
  ruleOf e := by rw [ruleOf_eq_error_iff, Nat.not_lt]
  transitions e := by
    by_cases h : index s < net.size
    · simp [transitions_of_lt h, h]
    · rw [transitions_of_le (Nat.le_of_not_lt h), Except.error.injEq, eq_comm]
      exact (and_iff_right h).symm
  follow u := by
    by_cases h : index s < net.size
    · exact iff_of_false (follow_ne_unknown h u) fun unknown => unknown.1 h
    · rw [follow_of_le (Nat.le_of_not_lt h), Except.error.injEq, NetworkError.unknownState.injEq,
        eq_comm]
      exact (and_iff_right h).symm

/-- **A new transition checks the cut numbers of its states**, the source first. -/
theorem connects_index (net : Network) (s t : State) (transition : Transition) :
    net.ConnectsBy (index · < net.size) s t transition where
  accepted := by
    constructor
    · rintro ⟨net', run⟩
      by_cases h : index s < net.size ∧ index t < net.size
      · exact h
      · cases (addTransition_of_not_lt h).symm.trans run
    · rintro ⟨hs, ht⟩
      exact ⟨_, addTransition_of_lt hs ht⟩
  source hs := by
    rw [addTransition_of_not_lt fun h => hs h.1, if_pos (Nat.le_of_not_lt hs)]
  target hs ht := by
    rw [addTransition_of_not_lt fun h => ht h.2, if_neg (Nat.not_le_of_lt hs)]
  kept h := change_transition_of_not_lt h

/-- The check of a number only depends on whether it is known. -/
theorem ReadsBy.congr (h : net.ReadsBy known s) (hs : known s ↔ known' s) :
    net.ReadsBy known' s where
  ruleOf e := by rw [h.ruleOf, hs]
  transitions e := by rw [h.transitions, hs]
  follow u := by rw [h.follow, hs]

/-- The check of two numbers only depends on whether the first is known, and if so on the second. -/
theorem ConnectsBy.congr (h : net.ConnectsBy known s t transition) (hs : known s ↔ known' s)
    (ht : known s → (known t ↔ known' t)) : net.ConnectsBy known' s t transition := by
  have both : known s ∧ known t ↔ known' s ∧ known' t := by
    rw [← hs]
    exact and_congr_right ht
  constructor
  case accepted => rw [h.accepted, both]
  case source => exact fun hs' => h.source fun k => hs' (hs.mp k)
  case target =>
    intro hs' ht'
    have k := hs.mpr hs'
    exact h.target k fun k' => ht' ((ht k).mp k')
  case kept => exact fun hk => h.kept fun k => hk (both.mp k)

/-- **The lookups check the number itself exactly when it is not misread.** -/
theorem reads_toNat_iff : net.ReadsBy (·.toNat < net.size) s ↔ ¬ Misread net.size s := by
  have cuts := reads_index net s
  constructor
  · rintro exact ⟨large, low⟩
    obtain ⟨rule, found⟩ := ruleOf_of_lt low
    have refused := (exact.ruleOf (.unknownState s)).mpr ⟨Nat.not_lt.mpr large, rfl⟩
    cases found.symm.trans refused
  · intro h
    exact cuts.congr (not_misread_iff.mp h)

/-- **A new transition checks the numbers themselves exactly when neither is misread**, where the
    second counts only if the first is a state. -/
theorem connects_toNat_iff :
    net.ConnectsBy (·.toNat < net.size) s t transition ↔
      ¬ Misread net.size s ∧ (s.toNat < net.size → ¬ Misread net.size t) := by
  have cuts := connects_index net s t transition
  constructor
  · intro exact
    constructor
    · rintro ⟨large, low⟩
      -- whether the target is accepted or refused, the source should have been refused before
      have refused := exact.source (Nat.not_lt.mpr large)
      by_cases ht : index t < net.size
      · cases (addTransition_of_lt low ht).symm.trans refused
      · have named := (cuts.target low ht).symm.trans refused
        rw [Except.error.injEq, NetworkError.unknownState.injEq] at named
        exact ht (named ▸ low)
    · rintro hs ⟨large, low⟩
      have refused := exact.target hs (Nat.not_lt.mpr large)
      have low' := Nat.lt_of_le_of_lt (index_le s) hs
      cases (addTransition_of_lt low' low).symm.trans refused
  · rintro ⟨hs, ht⟩
    have same := not_misread_iff.mp hs
    exact cuts.congr same fun low => not_misread_iff.mp (ht (same.mp low))

/-! ## 3. What an accepted number stands for -/

/-- The rule that is found is that of the state whose number is the cut number. -/
theorem ruleOf_cut (net : Network) (s : State) :
    (net.ruleOf s).toOption = net.rules[(cut s).toNat]? := by
  unfold ruleOf
  rw [toNat_cut]
  cases net.rules[index s]? <;> rfl

theorem transitions_cut (net : Network) (s : State) :
    (net.transitions s).toOption = (net.transitions (cut s)).toOption := by
  by_cases h : index s < net.size
  · rw [transitions_of_lt h, transitions_of_lt ((index_cut s).symm ▸ h), index_cut]
  · have le := Nat.le_of_not_lt h
    rw [transitions_of_le le, transitions_of_le ((index_cut s).symm ▸ le)]
    rfl

theorem follow_cut (net : Network) (s : State) :
    (net.follow s).toOption = (net.follow (cut s)).toOption := by
  by_cases h : index s < net.size
  · rw [follow_of_lt h, follow_of_lt ((index_cut s).symm ▸ h), index_cut]
    split <;> rfl
  · have le := Nat.le_of_not_lt h
    rw [follow_of_le le, follow_of_le ((index_cut s).symm ▸ le)]
    rfl

/-- A transition between two numbers is one between the cut numbers. -/
theorem addTransition_cut (net : Network) (s t : State) (transition : Transition) :
    (net.addTransition s t transition).toOption =
      (net.addTransition (cut s) (cut t) transition).toOption := by
  by_cases h : index s < net.size ∧ index t < net.size
  · have h' : index (cut s) < net.size ∧ index (cut t) < net.size := by
      rw [index_cut, index_cut]
      exact h
    rw [addTransition_of_lt h.1 h.2, addTransition_of_lt h'.1 h'.2, index_cut, index_cut]
  · have h' : ¬ (index (cut s) < net.size ∧ index (cut t) < net.size) := by
      rw [index_cut, index_cut]
      exact h
    rw [addTransition_of_not_lt h, addTransition_of_not_lt h']
    rfl

/-! ## 4. Any changes -/

theorem size_built (changes : List Change) :
    (built changes).size = (changes.filterMap Change.rule?).length := by
  rw [size, rules_built]

/-- **State numbers are checked by their low 32 bits.** In a network to which `n` states were added,
    and any transitions, a number is known when its low bits are below `n`. Else every lookup of it
    fails and names it uncut, and a transition that has it is refused, changes nothing, and the
    error names the first such number. A number that is known stands for the state of its low bits,
    in lookups and in transitions. So the numbers themselves are checked exactly when they are not
    misread, and numbers of 32 bits never are. -/
theorem built_checks_cut_numbers (changes : List Change) (s t : State) (transition : Transition) :
    let net := built changes
    let rules := changes.filterMap Change.rule?
    let n := rules.length
    (net.ReadsBy (index · < n) s ∧ net.ConnectsBy (index · < n) s t transition) ∧
    ((net.ruleOf s).toOption = rules[(cut s).toNat]? ∧
      (net.transitions s).toOption = (net.transitions (cut s)).toOption ∧
      (net.follow s).toOption = (net.follow (cut s)).toOption ∧
      (net.addTransition s t transition).toOption =
        (net.addTransition (cut s) (cut t) transition).toOption) ∧
    (net.ReadsBy (·.toNat < n) s ↔ ¬ Misread n s) ∧
    (net.ConnectsBy (·.toNat < n) s t transition ↔
      ¬ Misread n s ∧ (s.toNat < n → ¬ Misread n t)) ∧
    (s.toNat < 0x100000000 → t.toNat < 0x100000000 →
      net.ReadsBy (·.toNat < n) s ∧ net.ConnectsBy (·.toNat < n) s t transition) := by
  intro net rules n
  have size : net.size = n := size_built changes
  have rule := ruleOf_cut net s
  rw [show net.rules = rules from rules_built changes] at rule
  rw [← size]
  refine ⟨⟨reads_index net s, connects_index net s t transition⟩, ?_, reads_toNat_iff,
    connects_toNat_iff, ?_⟩
  · exact ⟨rule, transitions_cut net s, follow_cut net s, addTransition_cut net s t transition⟩
  · intro small small'
    have exact_s : ¬ Misread net.size s := fun h => Nat.not_lt.mpr h.le small
    have exact_t : ¬ Misread net.size t := fun h => Nat.not_lt.mpr h.le small'
    exact ⟨reads_toNat_iff.mpr exact_s, connects_toNat_iff.mpr ⟨exact_s, fun _ => exact_t⟩⟩

/-- A network of one state takes a number of 33 bits for it. -/
theorem state_found_past_last :
    let net := built [.state 7]
    net.ruleOf 0x100000000 = .ok 7 ∧
    net.addTransition 0x100000000 0 .epsilon = .ok ⟨[7], [⟨0, 0, .epsilon⟩]⟩ ∧
    ¬ net.ReadsBy (·.toNat < 1) 0x100000000 ∧
    ¬ net.ConnectsBy (·.toNat < 1) 0x100000000 0 .epsilon := by
  intro net
  have misread : Misread net.size 0x100000000 := misread_of_pos (by decide) (by decide)
  exact ⟨rfl, rfl, fun exact => reads_toNat_iff.mp exact misread,
    fun exact => (connects_toNat_iff.mp exact).1 misread⟩

end Network

end StackGraph
