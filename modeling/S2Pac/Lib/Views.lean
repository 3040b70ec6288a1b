import S2Pac.Lib.Forest

/-!
# Chains of views with a leader

Blocks in views. Everybody adds a block to a view (`first`), and in hindsight one of them is the
leader's (`lead`), which may have got a successor (`next`). A view is left on one of three grounds: the
successor is known; or `Skip₁`, and the view ends with the leader's block; or `Skip₀`, and it is as if
the leader's block had not been there. The blocks that are decided on lie on one chain as soon as a
decision rules out the grounds that would pass over it (`Views.comparable`).
-/

namespace S2Pac.Lib

variable {β : Type}

/-- The blocks of the views, and how a view follows the one before it. -/
structure Views (par : β → Option β) (first lead next : ℤ → β → Prop) (Skip₀ Skip₁ : ℤ → Prop) :
    Prop where
  nonneg : ∀ v b, first v b → 0 ≤ v
  lead_first : ∀ v b, lead v b → first v b
  lead_unique : ∀ v b b', lead v b → lead v b' → b = b'
  next_unique : ∀ v b b', next v b → next v b' → b = b'
  next_par : ∀ v c, next v c → ∃ b, lead v b ∧ par c = some b
  step : ∀ v b, first v b → (v = 0 ∧ par b = none) ∨ ∃ u, v = u + 1 ∧
    ((∃ c, next u c ∧ par b = some c) ∨ (Skip₁ u ∧ ∃ c, lead u c ∧ par b = some c) ∨
      (Skip₀ u ∧ ∃ c, lead u c ∧ par b = par c))

/-- The block of view `v` is decided on: nobody passes over it. -/
def Decided (lead next : ℤ → β → Prop) (Skip₀ Skip₁ : ℤ → Prop) (v : ℤ) (b : β) : Prop :=
  (lead v b ∧ ¬ Skip₀ v) ∨ (next v b ∧ ¬ Skip₀ v ∧ ¬ Skip₁ v)

namespace Views

variable {par : β → Option β} {first lead next : ℤ → β → Prop} {Skip₀ Skip₁ : ℤ → Prop}

theorem nonneg_of_decided (hV : Views par first lead next Skip₀ Skip₁) {v : ℤ} {b : β}
    (hb : Decided lead next Skip₀ Skip₁ v b) : 0 ≤ v := by
  rcases hb with ⟨hl, -⟩ | ⟨hn, -⟩
  · exact hV.nonneg v b (hV.lead_first v b hl)
  · obtain ⟨c, hc, -⟩ := hV.next_par v b hn
    exact hV.nonneg v c (hV.lead_first v c hc)

theorem below_succ (hV : Views par first lead next Skip₀ Skip₁) {v : ℤ} {a b : β}
    (ha : Decided lead next Skip₀ Skip₁ v a) (hb : first (v + 1) b) :
    ∃ p, par b = some p ∧ Anc par a p := by
  rcases hV.step _ _ hb with ⟨hv, -⟩ | ⟨u, hu, hcase⟩
  · have := hV.nonneg_of_decided ha
    omega
  · obtain rfl : u = v := by omega
    rcases hcase with ⟨c, hc, hp⟩ | ⟨hs, c, hc, hp⟩ | ⟨hs, -⟩
    · refine ⟨c, hp, ?_⟩
      rcases ha with ⟨hl, -⟩ | ⟨hn, -⟩
      · obtain ⟨d, hd, hpd⟩ := hV.next_par _ _ hc
        rw [hV.lead_unique _ _ _ hl hd]
        exact Anc.of_par hpd
      · rw [hV.next_unique _ _ _ hn hc]
        exact Anc.refl c
    · rcases ha with ⟨hl, -⟩ | ⟨-, -, hno⟩
      · exact ⟨c, hp, hV.lead_unique _ _ _ hl hc ▸ Anc.refl _⟩
      · exact absurd hs hno
    · rcases ha with ⟨-, hno⟩ | ⟨-, hno, -⟩ <;> exact absurd hs hno

/-- **Every later view lies below a decision.** -/
theorem below (hV : Views par first lead next Skip₀ Skip₁) {v : ℤ} {a : β}
    (ha : Decided lead next Skip₀ Skip₁ v a) (n : ℕ) {b : β} (hb : first (v + 1 + n) b) :
    ∃ p, par b = some p ∧ Anc par a p := by
  induction n generalizing b with
  | zero => exact hV.below_succ ha (by simpa using hb)
  | succ n ih =>
    rcases hV.step _ _ hb with ⟨hv, -⟩ | ⟨u, hu, hcase⟩
    · have := hV.nonneg_of_decided ha
      omega
    · obtain rfl : u = v + 1 + n := by omega
      -- the leader's block of the view before lies below the decision
      have hlead : ∀ c, lead (v + 1 + n) c → ∃ p, par c = some p ∧ Anc par a p :=
        fun c hc => ih (hV.lead_first _ _ hc)
      rcases hcase with ⟨c, hc, hp⟩ | ⟨-, c, hc, hp⟩ | ⟨-, c, hc, hp⟩
      · obtain ⟨d, hd, hpd⟩ := hV.next_par _ _ hc
        obtain ⟨p, hpp, hap⟩ := hlead d hd
        exact ⟨c, hp, (hap.trans (Anc.of_par hpp)).trans (Anc.of_par hpd)⟩
      · obtain ⟨p, hpp, hap⟩ := hlead c hc
        exact ⟨c, hp, hap.trans (Anc.of_par hpp)⟩
      · obtain ⟨p, hpp, hap⟩ := hlead c hc
        exact ⟨p, hp.trans hpp, hap⟩

theorem anc_of_lt (hV : Views par first lead next Skip₀ Skip₁) {v u : ℤ} {a b : β}
    (ha : Decided lead next Skip₀ Skip₁ v a) (hb : Decided lead next Skip₀ Skip₁ u b)
    (hlt : v < u) : Anc par a b := by
  have hlead : ∀ c, lead u c → Anc par a c := by
    intro c hc
    have hu : u = v + 1 + (u - (v + 1)).toNat := by omega
    have hf := hV.lead_first _ _ hc
    rw [hu] at hf
    obtain ⟨p, hp, hap⟩ := hV.below ha _ hf
    exact hap.trans (Anc.of_par hp)
  rcases hb with ⟨hl, -⟩ | ⟨hn, -⟩
  · exact hlead b hl
  · obtain ⟨d, hd, hpd⟩ := hV.next_par _ _ hn
    exact (hlead d hd).trans (Anc.of_par hpd)

theorem comparable_of_eq (hV : Views par first lead next Skip₀ Skip₁) {v : ℤ} {a b : β}
    (ha : Decided lead next Skip₀ Skip₁ v a) (hb : Decided lead next Skip₀ Skip₁ v b) :
    Anc par a b ∨ Anc par b a := by
  have hln : ∀ c d, lead v c → next v d → Anc par c d := by
    intro c d hc hd
    obtain ⟨c', hc', hp⟩ := hV.next_par _ _ hd
    exact hV.lead_unique _ _ _ hc' hc ▸ Anc.of_par hp
  rcases ha with ⟨ha, -⟩ | ⟨ha, -⟩ <;> rcases hb with ⟨hb, -⟩ | ⟨hb, -⟩
  · exact Or.inl (hV.lead_unique _ _ _ ha hb ▸ Anc.refl _)
  · exact Or.inl (hln _ _ ha hb)
  · exact Or.inr (hln _ _ hb ha)
  · exact Or.inl (hV.next_unique _ _ _ ha hb ▸ Anc.refl _)

/-- **The blocks that are decided on lie on one chain.** -/
theorem comparable (hV : Views par first lead next Skip₀ Skip₁) {v u : ℤ} {a b : β}
    (ha : Decided lead next Skip₀ Skip₁ v a) (hb : Decided lead next Skip₀ Skip₁ u b) :
    Anc par a b ∨ Anc par b a := by
  rcases Int.lt_trichotomy v u with hlt | rfl | hlt
  · exact Or.inl (hV.anc_of_lt ha hb hlt)
  · exact hV.comparable_of_eq ha hb
  · exact Or.inr (hV.anc_of_lt hb ha hlt)

end Views

end S2Pac.Lib
