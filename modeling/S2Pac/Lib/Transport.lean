import S2Pac.Lib.Network

/-!
# A transport in the place of the air

In a `World` a message is in flight from the moment it is put out until it is delivered, and the hosts
have nothing between them. A transport that is made of queues, buffers and streams delays messages, loses
some, and hands the rest over in an order of its own. What it must not do is make messages up.

The messages that a host takes in are listed with the source they came from: `none` for the host itself,
`some j` for what the transport brings from `j`. When those that came from each source are among what the
source has put out (`Reach.exists_deliver`), the next one is in flight, and the delivery is a step of the
world (`Reach.recv_of_sent`). So the hosts of such a system are at every moment the hosts of a world.
-/

namespace S2Pac.Lib

section Sources

variable {τ μ : Type} [DecidableEq τ]

/-- What came from the source `t`, in order. -/
def comingFrom (t : τ) (l : List (τ × μ)) : List μ :=
  l.filterMap fun p => if p.1 = t then some p.2 else none

@[simp] theorem comingFrom_nil (t : τ) : comingFrom t ([] : List (τ × μ)) = [] := rfl

@[simp] theorem comingFrom_append (t : τ) (l l' : List (τ × μ)) :
    comingFrom t (l ++ l') = comingFrom t l ++ comingFrom t l' := List.filterMap_append

@[simp] theorem comingFrom_cons_self (t : τ) (m : μ) (l : List (τ × μ)) :
    comingFrom t ((t, m) :: l) = m :: comingFrom t l := by
  simp [comingFrom]

theorem comingFrom_cons_ne {t t' : τ} (h : t' ≠ t) (m : μ) (l : List (τ × μ)) :
    comingFrom t ((t', m) :: l) = comingFrom t l := by
  simp [comingFrom, h]

theorem mem_comingFrom {t : τ} {m : μ} {l : List (τ × μ)} : m ∈ comingFrom t l ↔ (t, m) ∈ l := by
  simp only [comingFrom, List.mem_filterMap]
  constructor
  · rintro ⟨⟨t', m'⟩, hp, h⟩
    split at h
    · next ht =>
      cases h
      exact ht ▸ hp
    · cases h
  · exact fun h => ⟨(t, m), h, by simp⟩

end Sources

variable {ι σ μ α ω : Type} [DecidableEq ι]

theorem countP_comingFrom (hosts : List ι) (P : μ → Bool) {l : List (Option ι × μ)}
    (hl : ∀ j m, (some j, m) ∈ l → j ∈ hosts) :
    (l.map Prod.snd).countP P = (comingFrom none l).countP P +
      ∑ j ∈ hosts.toFinset, (comingFrom (some j) l).countP P := by
  induction l with
  | nil => simp
  | cons p l ih =>
    obtain ⟨t, m⟩ := p
    have ih := ih fun j m hm => hl j m (List.mem_cons_of_mem _ hm)
    simp only [List.map_cons, List.countP_cons, ih]
    cases t with
    | none =>
      have hrest : ∀ j : ι, comingFrom (some j) ((none, m) :: l) = comingFrom (some j) l :=
        fun j => comingFrom_cons_ne (by simp) m l
      simp only [hrest, comingFrom_cons_self, List.countP_cons]
      omega
    | some i =>
      have hi : i ∈ hosts.toFinset := List.mem_toFinset.2 (hl i m List.mem_cons_self)
      have hrest : ∑ j ∈ hosts.toFinset.erase i, (comingFrom (some j) ((some i, m) :: l)).countP P =
          ∑ j ∈ hosts.toFinset.erase i, (comingFrom (some j) l).countP P := by
        refine Finset.sum_congr rfl fun j hj => ?_
        rw [comingFrom_cons_ne]
        exact fun h => Finset.ne_of_mem_erase hj (Option.some.inj h).symm
      have hold := Finset.add_sum_erase _ (fun j => (comingFrom (some j) l).countP P) hi
      have hnew := Finset.add_sum_erase _ (fun j => (comingFrom (some j) ((some i, m) :: l)).countP P) hi
      simp only [hrest, comingFrom_cons_self, List.countP_cons] at hold hnew
      rw [comingFrom_cons_ne (by simp)]
      omega

namespace Machine

variable {M : Machine ι σ μ α ω} {G : Guard ι σ μ α ω} [DecidableEq μ]

/-- **The next message is in flight** when the messages of every source, this one included, are among
those that the source has put out. -/
theorem Reach.exists_deliver {w : World ι σ μ ω} (h : M.Reach G w) {i : ι} (hi : i ∈ M.hosts) {m : μ}
    {l : List (Option ι × μ)} (hl : l.map Prod.snd = (w.host i).received ++ [m])
    (hsrc : ∀ j m', (some j, m') ∈ l → j ∈ M.hosts)
    (hsent : ∀ j ∈ M.hosts, (if j = i then (comingFrom none l).count m else 0) +
      (comingFrom (some j) l).count m ≤
        (w.host j).outs.countP (Out.brings j i fun m' => decide (m' = m))) :
    ∃ k : ℕ, w.net[k]? = some (i, m) := by
  have hin := countP_comingFrom M.hosts (fun m' => decide (m' = m)) hsrc
  rw [hl, List.countP_append, List.countP_singleton, decide_eq_true rfl, if_pos rfl] at hin
  have hout : (comingFrom none l).count m +
      ∑ j ∈ M.hosts.toFinset, (comingFrom (some j) l).count m ≤
        M.sentTo w i fun m' => decide (m' = m) := by
    have hi' : i ∈ M.hosts.toFinset := List.mem_toFinset.2 hi
    have hsum := Finset.sum_le_sum fun j hj => hsent j (List.mem_toFinset.1 hj)
    rw [Finset.sum_add_distrib, Finset.sum_ite_eq', if_pos hi'] at hsum
    exact hsum
  have hcount (l : List μ) : l.count m = l.countP fun m' => decide (m' = m) :=
    List.countP_congr fun _ _ => by simp
  simp only [hcount] at hout
  have hflight := h.conserve hi fun m' => decide (m' = m)
  have hpos : 0 < inFlight w i fun m' => decide (m' = m) := by omega
  obtain ⟨p, hp, heq⟩ := List.countP_pos_iff.1 hpos
  obtain ⟨rfl, rfl⟩ : p.1 = i ∧ p.2 = m := by simpa using heq
  exact List.mem_iff_getElem?.1 hp

/-- A host that takes in such a message takes a step of the world, -/
theorem Reach.recv_of_sent {w : World ι σ μ ω} (h : M.Reach G w) {i : ι} (hi : i ∈ M.hosts) {m : μ}
    {r : Host ι σ μ ω × List (Out ι μ ω)} (hg : G i (w.host i) (.recv m))
    (hr : M.input i (w.host i) (.recv m) = some r)
    {l : List (Option ι × μ)} (hl : l.map Prod.snd = (w.host i).received ++ [m])
    (hsrc : ∀ j m', (some j, m') ∈ l → j ∈ M.hosts)
    (hsent : ∀ j ∈ M.hosts, (if j = i then (comingFrom none l).count m else 0) +
      (comingFrom (some j) l).count m ≤
        (w.host j).outs.countP (Out.brings j i fun m' => decide (m' = m))) :
    ∃ w', M.Reach G w' ∧ w'.host = Function.update w.host i r.1 := by
  obtain ⟨k, hk⟩ := h.exists_deliver hi hl hsrc hsent
  exact ⟨_, h.tail (Step.deliver hk hg hr), rfl⟩

omit [DecidableEq μ] in
/-- and so does one that takes a step of its own. -/
theorem Reach.act_of_input {w : World ι σ μ ω} (h : M.Reach G w) {i : ι} (hi : i ∈ M.hosts) {a : α}
    {r : Host ι σ μ ω × List (Out ι μ ω)} (hg : G i (w.host i) (.act a))
    (hr : M.input i (w.host i) (.act a) = some r) :
    ∃ w', M.Reach G w' ∧ w'.host = Function.update w.host i r.1 :=
  ⟨_, h.tail (Step.act hi hg hr), rfl⟩

end Machine

end S2Pac.Lib
