import Mathlib.Data.List.Perm.Subperm
import Mathlib.Tactic.Positivity
import S2Pac.Elector

/-!
# The coin

What `Elector.Add` can do to an elector (`Elector.Adds`), and what follows for the leaders that it
records: they are a function of the view when `tbls.Recover` is one of the digest, whatever shares it
is given (`elector_agreement`). The first shares of `HightThreshold()` authors are combined, once: whether
a view gets a leader is settled by whether those are valid (`election_of_first_shares`).
-/

set_option linter.unusedSectionVars false

namespace S2Pac

variable {D : Type}

/-- Some shares of the view combine to a number that names `leader`. -/
def Elected (E : Env D) (leader : NodeID) (view : ℤ) : Prop :=
  ∃ shares qc, E.recover (E.sum256 (appendInt view)) shares = some qc ∧ leaderOf E qc = some leader

/-- The leader of a view in a committee to compute with. -/
def plainLeader (n : ℕ) (coin : ℕ → UInt8) (view : ℤ) : NodeID :=
  (coin ((Env.plain n coin).sum256 (appendInt view))).toNat % n

/-- A coin that names node 3 in view 0, where the digest of an `ElectMsg` is 49, and node 0 in the
other views. -/
def threeThenZero (d : ℕ) : UInt8 := if d = 49 then 3 else 0

theorem elected_plain {n : ℕ} {coin : ℕ → UInt8} (leader : NodeID) (view : ℤ)
    (h : Elected (Env.plain n coin) leader view) : leader = plainLeader n coin view := by
  obtain ⟨shares, qc, hr, hl⟩ := h
  obtain rfl := Option.some.inj hr
  have hn : (Env.plain n coin).n = n := rfl
  simpa [leaderOf, plainLeader, hn] using (Option.some.inj hl).symm

variable {E : Env D}

/-- Four bytes name a leader. -/
theorem exists_leaderOf {qc : Bytes} (hlen : 4 ≤ qc.length) :
    ∃ leader, leaderOf E qc = some leader := by
  match qc, hlen with
  | _ :: _ :: _ :: _ :: _, _ => exact ⟨_, rfl⟩

theorem leaderOf_mem (hn : 1 ≤ E.n) {qc : Bytes} (hlen : 4 ≤ qc.length) :
    ∃ leader ∈ E.members, leaderOf E qc = some leader := by
  match qc, hlen with
  | b₀ :: b₁ :: b₂ :: b₃ :: _, _ =>
    refine ⟨_, E.mem_members.2 ⟨Int.emod_nonneg _ ?_, Int.emod_lt_of_pos _ ?_⟩, rfl⟩ <;> omega

theorem leaderOf_nonneg {qc : Bytes} {leader : NodeID} (h : leaderOf E qc = some leader) :
    0 ≤ leader := by
  unfold leaderOf at h
  split at h
  · cases h
    by_cases hn : (E.n : ℤ) = 0
    · rw [hn, Int.emod_zero]
      positivity
    · exact Int.emod_nonneg _ hn
  · cases h

theorem ne_NONE_of_leaderOf {qc : Bytes} {leader : NodeID} (h : leaderOf E qc = some leader) :
    leader ≠ NONE := by
  rintro rfl
  exact absurd (leaderOf_nonneg h) (by decide)

namespace Elector

/-! ## Adding a share -/

/-- The aggregators after the share of `e` has been kept. -/
def collect (el : Elector) (e : ElectMsg) : ℤ → Aggregator :=
  Function.update el.aggregator e.view
    ⟨(el.aggregator e.view).elects ++ [e], e.author :: (el.aggregator e.view).used⟩

/-- **What `Add` can do.** -/
inductive Adds (E : Env D) (el : Elector) (e : ElectMsg) :
    Elector → Except ElectErr NodeID → Prop
  /-- The author has sent a share before. -/
  | used {err : ElectErr} : e.author ∈ (el.aggregator e.view).used → Adds E el e el (.error err)
  /-- The share is kept, and the shares do not combine. -/
  | failed {err : ElectErr} : e.author ∉ (el.aggregator e.view).used →
      Adds E el e { el with aggregator := el.collect e } (.error err)
  /-- The share is kept, and no leader is named. -/
  | kept : e.author ∉ (el.aggregator e.view).used →
      Adds E el e { el with aggregator := el.collect e } (.ok NONE)
  /-- The share completes the threshold. -/
  | elected {leader : NodeID} : e.author ∉ (el.aggregator e.view).used → leader ≠ NONE →
      (el.aggregator e.view).elects.length + 1 = E.hightThreshold → Elected E leader e.view →
      Adds E el e ⟨Function.update el.leaders e.view (some leader), el.collect e⟩ (.ok leader)

/-- A second share of an author is turned down. -/
theorem add_used {el : Elector} {e : ElectMsg} (h : e.author ∈ (el.aggregator e.view).used) :
    el.add E e = some (el, .error (.usedElect e.view e.author)) := by
  unfold Elector.add Aggregator.append
  simp only [h, if_true, Function.update_eq_self]

/-- The first share of an author is kept, and the shares are combined when it completes the
threshold. -/
theorem add_fresh {el : Elector} {e : ElectMsg} (h : e.author ∉ (el.aggregator e.view).used) :
    el.add E e =
      if (el.aggregator e.view).elects.length + 1 = E.hightThreshold then
        (E.recover (e.hash E) (((el.aggregator e.view).elects ++ [e]).map ElectMsg.sigShare)).elim
          (some ({ el with aggregator := el.collect e }, .error .recover))
          fun qc => (leaderOf E qc).map fun leader =>
            (⟨Function.update el.leaders e.view (some leader), el.collect e⟩, .ok leader)
      else some ({ el with aggregator := el.collect e }, .ok NONE) := by
  unfold Elector.add Aggregator.append
  simp only [h, if_false, List.length_append, List.length_singleton]
  by_cases hlen : (el.aggregator e.view).elects.length + 1 = E.hightThreshold
  · simp only [hlen, if_true]
    cases E.recover (e.hash E)
        (((el.aggregator e.view).elects ++ [e]).map ElectMsg.sigShare) with
    | none => rfl
    | some qc =>
      cases hleader : leaderOf E qc with
      | none => simp only [hleader, Option.map_none, Option.elim_some]
      | some leader =>
        simp only [hleader, Option.map_some, Option.elim_some, if_neg (ne_NONE_of_leaderOf hleader)]
        rfl
  · simp only [hlen, if_false, if_true]
    rfl

/-- **What `Add` does with the first share of an author.** -/
inductive Keeps (E : Env D) (el : Elector) (e : ElectMsg) : Elector → Except ElectErr NodeID → Prop
  /-- It does not complete the threshold. -/
  | counted : (el.aggregator e.view).elects.length + 1 ≠ E.hightThreshold →
      Keeps E el e { el with aggregator := el.collect e } (.ok NONE)
  /-- It does, and the shares do not combine. -/
  | failed : (el.aggregator e.view).elects.length + 1 = E.hightThreshold →
      E.recover (e.hash E) (((el.aggregator e.view).elects ++ [e]).map ElectMsg.sigShare) = none →
      Keeps E el e { el with aggregator := el.collect e } (.error .recover)
  /-- It does, and they combine to a number that names `leader`. -/
  | elected {qc : Bytes} {leader : NodeID} :
      (el.aggregator e.view).elects.length + 1 = E.hightThreshold →
      E.recover (e.hash E) (((el.aggregator e.view).elects ++ [e]).map ElectMsg.sigShare) = some qc →
      leaderOf E qc = some leader →
      Keeps E el e ⟨Function.update el.leaders e.view (some leader), el.collect e⟩ (.ok leader)

theorem keeps_of_add {el el' : Elector} {e : ElectMsg} {res : Except ElectErr NodeID}
    (h : el.add E e = some (el', res)) (hused : e.author ∉ (el.aggregator e.view).used) :
    Keeps E el e el' res := by
  rw [add_fresh hused] at h
  split at h
  · next hlen =>
    cases hrec : E.recover (e.hash E)
        (((el.aggregator e.view).elects ++ [e]).map ElectMsg.sigShare) with
    | none =>
      rw [hrec] at h
      cases h
      exact Keeps.failed hlen hrec
    | some qc =>
      rw [hrec] at h
      obtain ⟨leader, hleader, he⟩ := Option.map_eq_some_iff.1 h
      cases he
      exact Keeps.elected hlen hrec hleader
  · next hlen =>
    cases h
    exact Keeps.counted hlen

theorem adds_of_add {el el' : Elector} {e : ElectMsg} {res : Except ElectErr NodeID}
    (h : el.add E e = some (el', res)) : Adds E el e el' res := by
  by_cases hused : e.author ∈ (el.aggregator e.view).used
  · rw [add_used hused] at h
    cases h
    exact Adds.used hused
  · cases keeps_of_add h hused with
    | counted _ => exact Adds.kept hused
    | failed _ _ => exact Adds.failed hused
    | elected hlen hrec hleader =>
      exact Adds.elected hused (ne_NONE_of_leaderOf hleader) hlen ⟨_, _, hrec, hleader⟩

theorem collect_elects (el : Elector) (e : ElectMsg) (view : ℤ) :
    (el.collect e view).elects =
      (el.aggregator view).elects ++ if view = e.view then [e] else [] := by
  unfold collect
  by_cases hv : view = e.view
  · subst hv
    simp
  · simp [hv]

end Elector

theorem elected_of_add {el el' : Elector} {e : ElectMsg} {leader : NodeID}
    (h : el.add E e = some (el', .ok leader)) (hne : leader ≠ NONE) : Elected E leader e.view := by
  cases Elector.adds_of_add h with
  | kept _ => exact absurd rfl hne
  | elected _ _ _ helected => exact helected

theorem length_le_of_add {el el' : Elector} {e : ElectMsg} {res : Except ElectErr NodeID}
    (h : el.add E e = some (el', res)) (view : ℤ) :
    (el.aggregator view).elects.length ≤ (el'.aggregator view).elects.length := by
  have hle : (el.aggregator view).elects.length ≤ (el.collect e view).elects.length := by
    rw [Elector.collect_elects, List.length_append]
    exact Nat.le_add_right _ _
  cases Elector.adds_of_add h with
  | used _ => exact Nat.le_refl _
  | failed _ => exact hle
  | kept _ => exact hle
  | elected _ _ _ _ => exact hle

/-- A leader comes with the share that completes the threshold. -/
theorem length_of_add {el el' : Elector} {e : ElectMsg} {leader : NodeID}
    (h : el.add E e = some (el', .ok leader)) (hne : leader ≠ NONE) :
    (el.aggregator e.view).elects.length + 1 = E.hightThreshold ∧
      (el'.aggregator e.view).elects.length = E.hightThreshold := by
  cases Elector.adds_of_add h with
  | kept _ => exact absurd rfl hne
  | elected _ _ hlen _ =>
    refine ⟨hlen, ?_⟩
    dsimp only
    rw [Elector.collect_elects, if_pos rfl, List.length_append]
    exact hlen

/-! ## Runs of an elector -/

namespace Elector

/-- The elector after a sequence of shares; `none` where it panics. -/
def feed (E : Env D) (el : Elector) : List ElectMsg → Option Elector
  | [] => some el
  | e :: es =>
    match el.add E e with
    | none => none
    | some (el', _) => feed E el' es

theorem Adds.elected_of_leaders {el el' : Elector} {e : ElectMsg} {res : Except ElectErr NodeID}
    (h : Adds E el e el' res)
    (hel : ∀ view leader, el.leaders view = some leader → Elected E leader view) :
    ∀ view leader, el'.leaders view = some leader → Elected E leader view := by
  intro view leader hl
  cases h with
  | used _ => exact hel view leader hl
  | failed _ => exact hel view leader hl
  | kept _ => exact hel view leader hl
  | elected _ _ _ helected =>
    dsimp only at hl
    by_cases hv : view = e.view
    · subst hv
      rw [Function.update_self] at hl
      exact Option.some.inj hl ▸ helected
    · rw [Function.update_of_ne hv] at hl
      exact hel view leader hl

theorem elected_of_feed {el el' : Elector} {es : List ElectMsg} (h : el.feed E es = some el')
    (hel : ∀ view leader, el.leaders view = some leader → Elected E leader view) :
    ∀ view leader, el'.leaders view = some leader → Elected E leader view := by
  induction es generalizing el with
  | nil =>
    cases h
    exact hel
  | cons e es ih =>
    unfold feed at h
    split at h
    · cases h
    · next el₁ res hadd => exact ih h ((adds_of_add hadd).elected_of_leaders hel)

/-- `Add` does not panic when what the shares combine to has four bytes. -/
theorem exists_add (hlen : ∀ digest shares qc, E.recover digest shares = some qc → 4 ≤ qc.length)
    (el : Elector) (e : ElectMsg) : ∃ r, el.add E e = some r := by
  by_cases hused : e.author ∈ (el.aggregator e.view).used
  · exact ⟨_, add_used hused⟩
  · rw [add_fresh hused]
    split
    · cases hrec : E.recover (e.hash E)
          (((el.aggregator e.view).elects ++ [e]).map ElectMsg.sigShare) with
      | none => exact ⟨_, rfl⟩
      | some qc =>
        obtain ⟨leader, hleader⟩ := exists_leaderOf (E := E) (hlen _ _ _ hrec)
        exact ⟨_, by rw [Option.elim_some, hleader]; rfl⟩
    · exact ⟨_, rfl⟩

theorem exists_feed
    (hlen : ∀ digest shares qc, E.recover digest shares = some qc → 4 ≤ qc.length)
    (es : List ElectMsg) (el : Elector) : ∃ el', el.feed E es = some el' := by
  induction es generalizing el with
  | nil => exact ⟨el, rfl⟩
  | cons e es ih =>
    obtain ⟨⟨el₁, res⟩, hadd⟩ := exists_add hlen el e
    obtain ⟨el', hfeed⟩ := ih el₁
    exact ⟨el', by rw [feed, hadd]; exact hfeed⟩

end Elector

/-- The coin of a view is one when `tbls.Recover` depends on the digest only. -/
theorem Elected.unique
    (hrec : ∀ digest shares shares' qc qc', E.recover digest shares = some qc →
      E.recover digest shares' = some qc' → qc = qc')
    {leader leader' : NodeID} {view : ℤ} (h : Elected E leader view)
    (h' : Elected E leader' view) : leader = leader' := by
  obtain ⟨shares, qc, hr, hl⟩ := h
  obtain ⟨shares', qc', hr', hl'⟩ := h'
  obtain rfl := hrec _ _ _ _ _ hr hr'
  exact Option.some.inj (hl.symm.trans hl')

/-- **Electors agree.** Two electors that are fed any shares, in any order and with any repetitions, do
not panic, and the leaders that they record for a view are one member of the committee. -/
theorem elector_agreement (hn : 1 ≤ E.n)
    (hrec : ∀ digest shares shares' qc qc', E.recover digest shares = some qc →
      E.recover digest shares' = some qc' → qc = qc')
    (hlen : ∀ digest shares qc, E.recover digest shares = some qc → 4 ≤ qc.length)
    (es es' : List ElectMsg) :
    ∃ el el', Elector.new.feed E es = some el ∧ Elector.new.feed E es' = some el' ∧
      ∀ view leader leader', el.leaders view = some leader → el'.leaders view = some leader' →
        leader = leader' ∧ 0 ≤ leader ∧ leader < E.n := by
  obtain ⟨el, hel⟩ := Elector.exists_feed hlen es Elector.new
  obtain ⟨el', hel'⟩ := Elector.exists_feed hlen es' Elector.new
  refine ⟨el, el', hel, hel', fun view leader leader' hl hl' => ?_⟩
  have hnew : ∀ view leader, Elector.new.leaders view = some leader → Elected E leader view :=
    fun _ _ h => nomatch h
  have helected := Elector.elected_of_feed hel hnew view leader hl
  refine ⟨helected.unique hrec (Elector.elected_of_feed hel' hnew view leader' hl'), ?_⟩
  obtain ⟨shares, qc, hqc, hleader⟩ := helected
  obtain ⟨member, hmem, hm⟩ := leaderOf_mem hn (hlen _ _ _ hqc)
  obtain rfl := Option.some.inj (hleader.symm.trans hm)
  exact E.mem_members.1 hmem

/-- The shares of nodes 0, 1 and 2, and those of nodes 3, 2 and 1 with a repetition. -/
theorem elector_agreement_four :
    ((Elector.new.feed (Env.plain 4 fun _ => 3) [⟨0, 0, []⟩, ⟨1, 0, []⟩, ⟨2, 0, []⟩]).bind
        fun el => el.leaders 0) = some 3 ∧
      ((Elector.new.feed (Env.plain 4 fun _ => 3)
        [⟨3, 0, []⟩, ⟨2, 0, []⟩, ⟨3, 0, []⟩, ⟨1, 0, []⟩]).bind fun el => el.leaders 0) = some 3 ∧
      ∃ el el',
        Elector.new.feed (Env.plain 4 fun _ => 3) [⟨0, 0, []⟩, ⟨1, 0, []⟩, ⟨2, 0, []⟩] = some el ∧
        Elector.new.feed (Env.plain 4 fun _ => 3)
          [⟨3, 0, []⟩, ⟨2, 0, []⟩, ⟨3, 0, []⟩, ⟨1, 0, []⟩] = some el' ∧
        ∀ view leader leader', el.leaders view = some leader → el'.leaders view = some leader' →
          leader = leader' ∧ 0 ≤ leader ∧ leader < 4 := by
  refine ⟨by decide, by decide, ?_⟩
  refine elector_agreement (E := Env.plain 4 fun _ => 3) (by decide) ?_ ?_ _ _
  · intro _ _ _ _ _ h h'
    exact Option.some.inj (h.symm.trans h')
  · intro _ _ _ h
    rw [← Option.some.inj h]
    exact Nat.le_refl 4

/-! ## Shares that do not combine -/

namespace Elector

/-- The share of `e` is kept for `view` if none of its author has been. -/
def keep (view : ℤ) (ks : List ElectMsg) (e : ElectMsg) : List ElectMsg :=
  if e.view = view ∧ e.author ∉ ks.map ElectMsg.author then ks ++ [e] else ks

/-- What is kept for `view` of a sequence of messages: the first one of every author. -/
def kept (view : ℤ) (es : List ElectMsg) : List ElectMsg := es.foldl (keep view) []

/-- What the first `HightThreshold()` shares combine to. -/
def outcome (E : Env D) (view : ℤ) (ks : List ElectMsg) : Option NodeID :=
  (E.recover (E.sum256 (appendInt view)) ((ks.take E.hightThreshold).map ElectMsg.sigShare)).bind
    (leaderOf E)

theorem subset_keep (view : ℤ) (ks : List ElectMsg) (e : ElectMsg) : ks ⊆ keep view ks e := by
  unfold keep
  split
  · exact List.subset_append_left _ _
  · exact List.Subset.refl _

theorem subset_foldl_keep (view : ℤ) (es ks : List ElectMsg) : ks ⊆ es.foldl (keep view) ks := by
  induction es generalizing ks with
  | nil => exact List.Subset.refl _
  | cons e es ih => exact List.Subset.trans (subset_keep view ks e) (ih _)

theorem author_mem_kept {view : ℤ} {es : List ElectMsg} {e : ElectMsg} (he : e ∈ es)
    (hv : e.view = view) : e.author ∈ (kept view es).map ElectMsg.author := by
  have hfold : ∀ ks, e.author ∈ (es.foldl (keep view) ks).map ElectMsg.author := by
    induction es with
    | nil => exact absurd he List.not_mem_nil
    | cons e' es ih =>
      intro ks
      rcases List.mem_cons.1 he with rfl | he
      · refine List.map_subset _ (subset_foldl_keep view es (keep view ks e)) ?_
        by_cases hk : e.author ∈ ks.map ElectMsg.author
        · exact List.map_subset _ (subset_keep view ks e) hk
        · rw [keep, if_pos ⟨hv, hk⟩]
          simp
      · exact ih he _
  exact hfold []

/-- **The shares of a view in an elector**: those in `ks` have been kept, and the leader is the one that
the first `HightThreshold()` of them combine to. -/
structure Holds (E : Env D) (el : Elector) (view : ℤ) (ks : List ElectMsg) : Prop where
  elects : (el.aggregator view).elects = ks
  used : ∀ a, a ∈ (el.aggregator view).used ↔ a ∈ ks.map ElectMsg.author
  leaders : el.leaders view = if E.hightThreshold ≤ ks.length then outcome E view ks else none

theorem holds_new (view : ℤ) : Holds E new view [] where
  elects := rfl
  used := by simp [new]
  leaders := by
    rw [if_neg (by simp [Env.hightThreshold])]
    rfl

theorem leaders_of_add {el el' : Elector} {e : ElectMsg} {res : Except ElectErr NodeID}
    (h : el.add E e = some (el', res)) (hused : e.author ∉ (el.aggregator e.view).used) :
    el'.aggregator = el.collect e ∧
      el'.leaders = if (el.aggregator e.view).elects.length + 1 = E.hightThreshold then
        Function.update el.leaders e.view (((E.recover (e.hash E)
          (((el.aggregator e.view).elects ++ [e]).map ElectMsg.sigShare)).bind (leaderOf E)).or
            (el.leaders e.view))
      else el.leaders := by
  cases keeps_of_add h hused with
  | counted hlen => exact ⟨rfl, (if_neg hlen).symm⟩
  | failed hlen hrec =>
    rw [if_pos hlen, hrec, Option.bind_none, Option.none_or, Function.update_eq_self]
    exact ⟨rfl, rfl⟩
  | elected hlen hrec hleader =>
    rw [if_pos hlen, hrec, Option.bind_some, hleader, Option.some_or]
    exact ⟨rfl, rfl⟩

/-- Shares that come after those that complete the threshold do not change the outcome. -/
theorem outcome_append {view : ℤ} {ks : List ElectMsg} (h : E.hightThreshold ≤ ks.length)
    (ks' : List ElectMsg) : outcome E view (ks ++ ks') = outcome E view ks := by
  unfold outcome
  rw [List.take_append_of_le_length h]

theorem Holds.add {el el' : Elector} {e : ElectMsg} {res : Except ElectErr NodeID}
    (hadd : el.add E e = some (el', res)) {view : ℤ} {ks : List ElectMsg}
    (h : Holds E el view ks) : Holds E el' view (keep view ks e) := by
  by_cases hused : e.author ∈ (el.aggregator e.view).used
  · -- nothing changes
    have hel : el' = el := by
      cases adds_of_add hadd with
      | used _ => rfl
      | failed hno => exact absurd hused hno
      | kept hno => exact absurd hused hno
      | elected hno _ _ _ => exact absurd hused hno
    have hkeep : keep view ks e = ks := by
      unfold keep
      rw [if_neg]
      rintro ⟨rfl, hno⟩
      exact hno ((h.used _).1 hused)
    rw [hel, hkeep]
    exact h
  · obtain ⟨hagg, hlead⟩ := leaders_of_add hadd hused
    by_cases hv : e.view = view
    · subst hv
      have hno : e.author ∉ ks.map ElectMsg.author := fun hm => hused ((h.used _).2 hm)
      rw [keep, if_pos ⟨rfl, hno⟩]
      rw [h.elects] at hlead
      refine ⟨?_, fun a => ?_, ?_⟩
      · rw [hagg, collect_elects, if_pos rfl, h.elects]
      · rw [hagg, collect, Function.update_self]
        simp only [List.mem_cons, h.used, List.map_append, List.map_cons, List.map_nil,
          List.mem_append, List.not_mem_nil, or_false]
        exact or_comm
      · rw [hlead, List.length_append, List.length_singleton]
        by_cases hlen : ks.length + 1 = E.hightThreshold
        · have hbefore : el.leaders e.view = none := by
            rw [h.leaders, if_neg (by omega)]
          have hout : outcome E e.view (ks ++ [e]) =
              (E.recover (e.hash E) ((ks ++ [e]).map ElectMsg.sigShare)).bind (leaderOf E) := by
            unfold outcome
            rw [List.take_of_length_le (by rw [List.length_append, List.length_singleton]; omega)]
            rfl
          rw [if_pos hlen, if_pos (by omega), hout, Function.update_self, hbefore, Option.or_none]
        · rw [if_neg hlen, h.leaders]
          by_cases hle : E.hightThreshold ≤ ks.length
          · rw [if_pos hle, if_pos (by omega), outcome_append hle]
          · rw [if_neg hle, if_neg (by omega)]
    · have hkeep : keep view ks e = ks := by
        unfold keep
        rw [if_neg fun h => hv h.1]
      have hsame : el'.aggregator view = el.aggregator view := by
        rw [hagg, collect, Function.update_of_ne (Ne.symm hv)]
      have hleader : el'.leaders view = el.leaders view := by
        rw [hlead]
        split
        · rw [Function.update_of_ne (Ne.symm hv)]
        · rfl
      rw [hkeep]
      exact ⟨hsame ▸ h.elects, hsame ▸ h.used, hleader ▸ h.leaders⟩

/-- **An elector that is fed a sequence of messages.** -/
theorem holds_of_feed {el el' : Elector} {es : List ElectMsg}
    (hfeed : el.feed E es = some el') {view : ℤ} {ks : List ElectMsg} (h : Holds E el view ks) :
    Holds E el' view (es.foldl (keep view) ks) := by
  induction es generalizing el ks with
  | nil =>
    cases hfeed
    exact h
  | cons e es ih =>
    unfold feed at hfeed
    split at hfeed
    · cases hfeed
    · next el₁ res hadd => exact ih hfeed (h.add hadd)

end Elector

/-- **What is assumed of `tbls.Recover`**: it combines `HightThreshold()` valid shares of distinct
indices and fails on any invalid one; what it makes is long enough to name a leader. -/
structure Recovers (E : Env D) (valid : D → Bytes → Prop) (index : Bytes → ℕ) : Prop where
  combines : ∀ digest shares, shares.length = E.hightThreshold → (∀ s ∈ shares, valid digest s) →
    (shares.map index).Nodup → (E.recover digest shares).isSome
  rejects : ∀ digest shares, (∃ s ∈ shares, ¬ valid digest s) → E.recover digest shares = none
  long : ∀ digest shares qc, E.recover digest shares = some qc → 4 ≤ qc.length

/-! Four nodes whose shares are one byte, the number of the node. -/

namespace OneByte

def valid (_ : ℕ) : Bytes → Prop
  | [b] => b.toNat < 4
  | _ => False

def index : Bytes → ℕ
  | [b] => b.toNat
  | _ => 0

instance (digest : ℕ) (s : Bytes) : Decidable (valid digest s) := by
  unfold valid
  split <;> infer_instance

def env : Env ℕ :=
  { Env.plain 4 fun _ => 0 with
    tsSign := fun i _ => [UInt8.ofNat i.toNat]
    recover := fun digest shares =>
      if (∀ s ∈ shares, valid digest s) ∧ (shares.map index).Nodup then some [0, 0, 0, 0] else none }

theorem recovers : Recovers env valid index where
  combines digest shares _ hvalid hnodup := by
    simp only [env, if_pos (And.intro hvalid hnodup), Option.isSome_some]
  rejects digest shares hbad := by
    obtain ⟨s, hs, hno⟩ := hbad
    simp only [env]
    rw [if_neg fun h => hno (h.1 s hs)]
  long digest shares qc h := by
    simp only [env] at h
    split at h
    · cases h
      decide
    · cases h

/-- The share of a node. -/
def share (i : ℕ) : ElectMsg := ⟨i, 0, [UInt8.ofNat i]⟩

end OneByte

/-- **When an election survives bad shares.** A sequence of messages for a view holds valid shares of
`HightThreshold()` authors, among anything else and in any order. The first messages of the first
`HightThreshold()` authors decide: if their shares are valid and have distinct indices, a leader is
recorded in the end, and if one of them is invalid, none is. -/
theorem election_of_first_shares (hn : 1 ≤ E.n) {valid : D → Bytes → Prop} {index : Bytes → ℕ}
    (hrec : Recovers E valid index) (view : ℤ) (es : List ElectMsg) (honest : List NodeID)
    (hnodup : honest.Nodup) (hmany : E.hightThreshold ≤ honest.length)
    (hhonest : ∀ i ∈ honest, ∃ e ∈ es, e.view = view ∧ e.author = i ∧
      valid (E.sum256 (appendInt view)) e.sigShare) :
    ∃ el, Elector.new.feed E es = some el ∧
      ((∀ e ∈ (Elector.kept view es).take E.hightThreshold,
          valid (E.sum256 (appendInt view)) e.sigShare) →
        (((Elector.kept view es).take E.hightThreshold).map fun e => index e.sigShare).Nodup →
        ∃ leader ∈ E.members, el.leaders view = some leader) ∧
      ((∃ e ∈ (Elector.kept view es).take E.hightThreshold,
          ¬ valid (E.sum256 (appendInt view)) e.sigShare) → el.leaders view = none) := by
  obtain ⟨el, hel⟩ := Elector.exists_feed hrec.long es Elector.new
  have hholds : Elector.Holds E el view (Elector.kept view es) :=
    Elector.holds_of_feed hel (Elector.holds_new view)
  have hlen : E.hightThreshold ≤ (Elector.kept view es).length := by
    have hsub : honest ⊆ (Elector.kept view es).map ElectMsg.author := by
      intro i hi
      obtain ⟨e, he, hv, rfl, -⟩ := hhonest i hi
      exact Elector.author_mem_kept he hv
    have := (List.subperm_of_subset hnodup hsub).length_le
    rw [List.length_map] at this
    omega
  have hleaders := hholds.leaders
  rw [if_pos hlen, Elector.outcome] at hleaders
  refine ⟨el, hel, fun hvalid hindex => ?_, fun hbad => ?_⟩
  · have hsome := hrec.combines (E.sum256 (appendInt view))
      (((Elector.kept view es).take E.hightThreshold).map ElectMsg.sigShare)
      (by rw [List.length_map, List.length_take, Nat.min_eq_left hlen])
      (fun s hs => by
        obtain ⟨e, he, rfl⟩ := List.mem_map.1 hs
        exact hvalid e he)
      (by rw [List.map_map]; exact hindex)
    obtain ⟨qc, hqc⟩ := Option.isSome_iff_exists.1 hsome
    obtain ⟨leader, hmem, hleader⟩ := leaderOf_mem hn (hrec.long _ _ _ hqc)
    refine ⟨leader, hmem, ?_⟩
    rw [hleaders, hqc]
    exact hleader
  · obtain ⟨e, he, hno⟩ := hbad
    rw [hleaders, hrec.rejects _ _ ⟨e.sigShare, List.mem_map_of_mem he, hno⟩]
    rfl

/-- The shares of nodes 0, 1 and 2 come before the bad one of node 3. -/
theorem election_of_first_shares_four :
    ∃ el, Elector.new.feed OneByte.env
        [OneByte.share 0, OneByte.share 1, OneByte.share 2, ⟨3, 0, []⟩] = some el ∧
      ∃ leader ∈ OneByte.env.members, el.leaders 0 = some leader := by
  obtain ⟨el, hel, hgood, -⟩ := election_of_first_shares (E := OneByte.env) (by decide)
    OneByte.recovers 0 [OneByte.share 0, OneByte.share 1, OneByte.share 2, ⟨3, 0, []⟩] [0, 1, 2]
    (by decide) (by decide) (by decide)
  exact ⟨el, hel, hgood (by decide) (by decide)⟩

/-- **One bad share stops an election.** Node 3 sends a share that is not valid, and its message comes
first; the valid shares of nodes 0, 1 and 2 follow, and no leader is recorded. -/
theorem election_stopped_by_bad_share :
    ∃ (E : Env ℕ) (valid : ℕ → Bytes → Prop) (index : Bytes → ℕ) (honest : List NodeID)
      (es : List ElectMsg) (el : Elector), 1 ≤ E.n ∧ Recovers E valid index ∧ honest.Nodup ∧
      honest ⊆ E.members ∧ E.hightThreshold ≤ honest.length ∧
      (∀ i ∈ honest, ∃ e ∈ es, e.view = 0 ∧ e.author = i ∧
        valid (E.sum256 (appendInt 0)) e.sigShare) ∧
      (∀ e ∈ es, e.view = 0) ∧
      (es.filter fun e => e.author ∉ honest).length ≤ (E.n - 1) / 3 ∧
      Elector.new.feed E es = some el ∧ el.leaders 0 = none := by
  obtain ⟨el, hel⟩ := Elector.exists_feed OneByte.recovers.long
    [⟨3, 0, []⟩, OneByte.share 0, OneByte.share 1, OneByte.share 2] Elector.new
  refine ⟨OneByte.env, OneByte.valid, OneByte.index, [0, 1, 2],
    [⟨3, 0, []⟩, OneByte.share 0, OneByte.share 1, OneByte.share 2], el, by decide,
    OneByte.recovers, by decide, by decide, by decide, by decide, by decide, by decide, hel, ?_⟩
  have hholds := Elector.holds_of_feed hel (Elector.holds_new 0)
  rw [hholds.leaders]
  decide

end S2Pac
