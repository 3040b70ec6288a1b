import S2Pac.Message
import Mathlib.Data.Finset.Card
import Mathlib.Data.Int.Interval
import Mathlib.Order.Interval.Finset.Basic

/-!
# The thresholds of a committee

`Committee.HightThreshold` and `Committee.LowThreshold` are `2f + 1` and `f + 1` for `f = (n - 1) / 3`.
They are the quorums of a committee of `3f + 1` nodes. The code takes a committee of any size, and for
the sizes in between two sets of `HightThreshold()` nodes need not share an honest node, or any node.
-/

namespace S2Pac

variable {D : Type}

namespace Env

variable (E : Env D)

/-- How many faulty nodes the thresholds are made for. -/
def tolerated : ℕ := (E.n - 1) / 3

theorem hightThreshold_eq : E.hightThreshold = 2 * E.tolerated + 1 := rfl

theorem lowThreshold_eq : E.lowThreshold = E.tolerated + 1 := rfl

theorem size_cases (hn : 1 ≤ E.n) : E.n = 3 * E.tolerated + 1 ∧ E.n % 3 = 1 ∨
    3 * E.tolerated + 2 ≤ E.n ∧ E.n % 3 ≠ 1 := by
  unfold tolerated
  omega

theorem card_members : E.members.toFinset.card = E.n := by
  rw [List.toFinset_card_of_nodup E.members_nodup]
  simp [members]

theorem card_le_card_inter {S S' : Finset NodeID} (hS : S ⊆ E.members.toFinset)
    (hS' : S' ⊆ E.members.toFinset) : S.card + S'.card ≤ (S ∩ S').card + E.n := by
  have hunion : (S ∪ S').card ≤ E.n := by
    rw [← E.card_members]
    exact Finset.card_le_card (Finset.union_subset hS hS')
  have := Finset.card_union_add_card_inter S S'
  omega

/-- Any two sets of `HightThreshold()` nodes share `f + 1` nodes. -/
def HightQuorumsMeet : Prop :=
  ∀ S S' : Finset NodeID, S ⊆ E.members.toFinset → S' ⊆ E.members.toFinset →
    E.hightThreshold ≤ S.card → E.hightThreshold ≤ S'.card → E.tolerated + 1 ≤ (S ∩ S').card

/-- Any set of `LowThreshold()` nodes meets any set of `HightThreshold()` nodes. -/
def LowQuorumsMeet : Prop :=
  ∀ S S' : Finset NodeID, S ⊆ E.members.toFinset → S' ⊆ E.members.toFinset →
    S.card = E.lowThreshold → S'.card = E.hightThreshold → (S ∩ S').Nonempty

/-! ## The first and the last nodes -/

/-- The first `a` nodes. -/
def firstNodes (a : ℕ) : Finset ℤ := E.members.toFinset.filter fun i : ℤ => i < a

/-- The last `a` nodes. -/
def lastNodes (a : ℕ) : Finset ℤ := E.members.toFinset.filter fun i : ℤ => E.n - a ≤ i

theorem firstNodes_subset (a : ℕ) : E.firstNodes a ⊆ E.members.toFinset := Finset.filter_subset _ _

theorem lastNodes_subset (a : ℕ) : E.lastNodes a ⊆ E.members.toFinset := Finset.filter_subset _ _

theorem card_firstNodes {a : ℕ} (ha : a ≤ E.n) : (E.firstNodes a).card = a := by
  have hset : E.firstNodes a = Finset.Ico (0 : ℤ) a := by
    ext i
    simp only [firstNodes, Finset.mem_filter, List.mem_toFinset, mem_members, Finset.mem_Ico]
    omega
  simp [hset]

theorem card_lastNodes {a : ℕ} (ha : a ≤ E.n) : (E.lastNodes a).card = a := by
  have hset : E.lastNodes a = Finset.Ico ((E.n : ℤ) - a) E.n := by
    ext i
    simp only [lastNodes, Finset.mem_filter, List.mem_toFinset, mem_members, Finset.mem_Ico]
    omega
  simp [hset]

theorem card_first_inter_last (a b : ℕ) :
    (E.firstNodes a ∩ E.lastNodes b).card ≤ a + b - E.n := by
  have hsub : E.firstNodes a ∩ E.lastNodes b ⊆ Finset.Ico ((E.n : ℤ) - b) a := by
    intro i hi
    simp only [firstNodes, lastNodes, Finset.mem_inter, Finset.mem_filter, Finset.mem_Ico] at hi ⊢
    exact ⟨hi.2.2, hi.1.2⟩
  refine (Finset.card_le_card hsub).trans ?_
  simp only [Int.card_Ico]
  omega

/-! ## When quorums meet -/

theorem hightQuorumsMeet_iff (hn : 1 ≤ E.n) : E.HightQuorumsMeet ↔ E.n % 3 = 1 := by
  constructor
  · intro hmeet
    rcases E.size_cases hn with ⟨-, h⟩ | ⟨hlarge, -⟩
    · exact h
    · have hle : E.hightThreshold ≤ E.n := by rw [hightThreshold_eq]; omega
      have hcard := hmeet _ _ (E.firstNodes_subset _) (E.lastNodes_subset _)
        (E.card_firstNodes hle).ge (E.card_lastNodes hle).ge
      have hfew := E.card_first_inter_last E.hightThreshold E.hightThreshold
      rw [hightThreshold_eq] at *
      omega
  · intro hmod S S' hS hS' hc hc'
    have hinter := E.card_le_card_inter hS hS'
    rcases E.size_cases hn with ⟨hsize, -⟩ | ⟨-, h⟩
    · rw [hightThreshold_eq] at hc hc'
      omega
    · exact absurd hmod h

theorem lowQuorumsMeet_iff (hn : 1 ≤ E.n) : E.LowQuorumsMeet ↔ E.n % 3 = 1 := by
  constructor
  · intro hmeet
    rcases E.size_cases hn with ⟨-, h⟩ | ⟨hlarge, -⟩
    · exact h
    · have hle : E.lowThreshold ≤ E.n ∧ E.hightThreshold ≤ E.n := by
        rw [lowThreshold_eq, hightThreshold_eq]
        omega
      have hpos := (hmeet _ _ (E.firstNodes_subset _) (E.lastNodes_subset _)
        (E.card_firstNodes hle.1) (E.card_lastNodes hle.2)).card_pos
      have hfew := E.card_first_inter_last E.lowThreshold E.hightThreshold
      rw [lowThreshold_eq, hightThreshold_eq] at *
      omega
  · intro hmod S S' hS hS' hc hc'
    have hinter := E.card_le_card_inter hS hS'
    rcases E.size_cases hn with ⟨hsize, -⟩ | ⟨-, h⟩
    · rw [lowThreshold_eq] at hc
      rw [hightThreshold_eq] at hc'
      exact Finset.card_pos.1 (by omega)
    · exact absurd hmod h

theorem hightThreshold_le_sub : 1 ≤ E.n → E.hightThreshold ≤ E.n - E.tolerated := by
  intro hn
  rw [hightThreshold_eq]
  unfold tolerated
  omega

end Env

/-- **Quorum arithmetic.** The quorums meet as they have to exactly in the committees of `3f + 1` nodes;
in every committee the nodes that are not faulty make a quorum. -/
theorem quorum_arithmetic (E : Env D) (hn : 1 ≤ E.n) :
    (E.HightQuorumsMeet ↔ E.n % 3 = 1) ∧ (E.LowQuorumsMeet ↔ E.n % 3 = 1) ∧
      E.hightThreshold ≤ E.n - E.tolerated :=
  ⟨E.hightQuorumsMeet_iff hn, E.lowQuorumsMeet_iff hn, E.hightThreshold_le_sub hn⟩

theorem quorum_arithmetic_four : (Env.plain 4 fun _ => 0).HightQuorumsMeet ∧
    (Env.plain 4 fun _ => 0).LowQuorumsMeet ∧ (Env.plain 4 fun _ => 0).hightThreshold ≤ 3 := by
  obtain ⟨hhight, hlow, hle⟩ := quorum_arithmetic (Env.plain 4 fun _ => 0) (by decide)
  exact ⟨hhight.2 (by decide), hlow.2 (by decide), hle⟩

/-- In a committee of two nodes each of them is a quorum. -/
theorem quorums_apart_two : ¬ ((Env.plain 2 fun _ => 0).HightQuorumsMeet ∧
    (Env.plain 2 fun _ => 0).LowQuorumsMeet ∧
    (Env.plain 2 fun _ => 0).hightThreshold ≤
      (Env.plain 2 fun _ => 0).n - (Env.plain 2 fun _ => 0).tolerated) := by
  rintro ⟨hmeet, -, -⟩
  have hcard := hmeet {0} {1} (by decide) (by decide) (by decide) (by decide)
  exact absurd hcard (by decide)

end S2Pac
