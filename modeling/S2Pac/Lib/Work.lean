import Mathlib.Logic.Hydra
import Mathlib.Data.List.Perm.Basic
import Mathlib.Data.Nat.Notation

/-!
# Work that is done piece by piece

What a system has still to do is a multiset of pieces, each with a rank. A step does one piece, and
may leave any number of pieces of lower ranks for it. Such steps come to an end (`acc_of_work`), since
`Relation.CutExpand` of a well-founded relation is well-founded. A system that can always take a step, and
lowers a rank with every one of them until something holds, comes to where it holds (`Eventually`).
-/

namespace S2Pac.Lib

open Relation

/-- One piece of work is done and pieces of lower ranks are left: `w` becomes `w'`. -/
abbrev Eases (w' w : Multiset ℕ) : Prop := CutExpand (· < ·) w' w

theorem eases_piece {a : ℕ} {t : Multiset ℕ} (w : Multiset ℕ) (h : ∀ b ∈ t, b < a) :
    Eases (w + t) (w + {a}) :=
  (cutExpand_add_left w).2 (cutExpand_singleton h)

theorem coe_eraseIdx_add {l : List ℕ} {i a : ℕ} (hi : l[i]? = some a) :
    (l : Multiset ℕ) = (l.eraseIdx i : List ℕ) + {a} := by
  obtain ⟨hlt, rfl⟩ := List.getElem?_eq_some_iff.1 hi
  rw [add_comm, Multiset.singleton_add, Multiset.cons_coe]
  exact Multiset.coe_eq_coe.2 (List.getElem_cons_eraseIdx_perm hlt).symm

theorem Eases.add {w w' : Multiset ℕ} (h : Eases w' w) (u : Multiset ℕ) : Eases (w' + u) (w + u) :=
  (cutExpand_add_right u).2 h

/-- Some pieces are done, one after the other. -/
abbrev EasesMore : Multiset ℕ → Multiset ℕ → Prop := TransGen Eases

theorem EasesMore.add {w w' : Multiset ℕ} (h : EasesMore w' w) (u : Multiset ℕ) :
    EasesMore (w' + u) (w + u) :=
  TransGen.lift (· + u) (fun _ _ h => Eases.add h u) _ _ h

theorem wellFounded_eases : WellFounded Eases := Nat.lt_wfRel.wf.cutExpand

section Rank

variable {σ ρ : Type*} {r : σ → σ → Prop} {lt : ρ → ρ → Prop} {I : σ → Prop}

/-- Steps that lower a rank come to an end. `I` is what the steps rest on and hand on. -/
theorem acc_of_rank (hwf : WellFounded lt) (rank : σ → ρ)
    (h : ∀ s s', I s → r s s' → I s' ∧ lt (rank s') (rank s)) {s : σ} (hs : I s) :
    Acc (fun s' s => r s s') s := by
  induction hw : rank s using hwf.induction generalizing s with
  | _ w ih =>
    refine Acc.intro s fun s' hr => ?_
    obtain ⟨hs', hlt⟩ := h s s' hs hr
    exact ih (rank s') (hw ▸ hlt) hs' rfl

theorem acc_of_work (work : σ → Multiset ℕ)
    (h : ∀ s s', I s → r s s' → I s' ∧ Eases (work s') (work s)) {s : σ} (hs : I s) :
    Acc (fun s' s => r s s') s :=
  acc_of_rank wellFounded_eases work h hs

/-- **Whatever is done, `P` comes to hold**: it holds, or there is a step to take, and after every step it
comes to hold. -/
inductive Eventually (r : σ → σ → Prop) (P : σ → Prop) : σ → Prop
  | now {s : σ} : P s → Eventually r P s
  | later {s : σ} : (∃ s', r s s') → (∀ s', r s s' → Eventually r P s') → Eventually r P s

/-- A system that can always go on, and lowers its rank until `P` holds. -/
theorem eventually_of_rank {P : σ → Prop} (hwf : WellFounded lt) (rank : σ → ρ)
    (hI : ∀ s s', I s → r s s' → I s') (hmove : ∀ s, I s → ∃ s', r s s')
    (hlt : ∀ s s', I s → r s s' → ¬ P s' → lt (rank s') (rank s)) {s : σ} (hs : I s) :
    Eventually r P s := by
  induction hw : rank s using hwf.induction generalizing s with
  | _ w ih =>
    refine .later (hmove s hs) fun s' hr => ?_
    by_cases hP : P s'
    · exact .now hP
    · exact ih (rank s') (hw ▸ hlt s s' hs hr hP) (hI s s' hs hr) rfl

theorem Eventually.imp {P Q : σ → Prop} (hI : ∀ s s', I s → r s s' → I s') (hPQ : ∀ s, I s → P s → Q s)
    {s : σ} (hs : I s) (h : Eventually r P s) : Eventually r Q s := by
  induction h with
  | now hP => exact .now (hPQ _ hs hP)
  | later hmove _ ih => exact .later hmove fun s' hr => ih s' hr (hI _ s' hs hr)

end Rank

end S2Pac.Lib
