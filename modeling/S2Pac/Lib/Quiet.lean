import Mathlib.Data.Finset.Max
import S2Pac.Lib.Log

/-!
# Hosts that nothing is on its way to

Where no message is in flight to a host, it has received all that was sent to it (`Machine.Quiet`). The
tasks of one key in a pool that drops nothing are a pool of their own, with a log
(`PoolCode.Serves.atKey`), so that what is said of one key at rest holds in a pool with many.
-/

namespace S2Pac.Lib

namespace Machine

variable {ι σ μ α ω : Type} [DecidableEq ι] {M : Machine ι σ μ α ω} {G : Guard ι σ μ α ω}
  {w : World ι σ μ ω} {i : ι}

/-- Nothing is on its way to host `i`. -/
def Quiet (w : World ι σ μ ω) (i : ι) : Prop := ∀ m, (i, m) ∉ w.net

namespace Quiet

theorem inFlight (hq : Quiet w i) (P : μ → Bool) : Machine.inFlight w i P = 0 := by
  refine List.countP_eq_zero.2 ?_
  rintro ⟨j, m⟩ hm hP
  obtain ⟨rfl, -⟩ : j = i ∧ P m = true := by simpa using hP
  exact hq m hm

section Reached

variable (hq : Quiet w i) (hw : M.Reach G w) (hi : i ∈ M.hosts)
include hq hw hi

theorem countP_eq (P : μ → Bool) : (w.host i).received.countP P = M.sentTo w i P := by
  have hc := hw.conserve hi P
  rwa [hq.inFlight, Nat.add_zero] at hc

theorem received {j : ι} (hj : j ∈ M.hosts) {o : Out ι μ ω} (ho : o ∈ (w.host j).outs) {m : μ}
    (hm : o.msgTo j i = some m) : m ∈ (w.host i).received := by
  classical
  have hsent : 0 < M.sentTo w i fun m' => decide (m' = m) := by
    refine Finset.sum_pos' (fun _ _ => Nat.zero_le _) ⟨j, List.mem_toFinset.2 hj, ?_⟩
    exact List.countP_pos_iff.2 ⟨o, ho, Out.brings_iff.2 ⟨m, hm, by simp⟩⟩
  rw [← hq.countP_eq hw hi] at hsent
  obtain ⟨m', hm', he⟩ := List.countP_pos_iff.1 hsent
  exact of_decide_eq_true he ▸ hm'

theorem card_le {P : μ → Bool} {S : Finset ι} (hS : S ⊆ M.hosts.toFinset)
    (hsent : ∀ j ∈ S, ∃ o ∈ (w.host j).outs, o.brings j i P = true) :
    S.card ≤ (w.host i).received.countP P := by
  rw [hq.countP_eq hw hi]
  calc S.card = ∑ _j ∈ S, 1 := Finset.card_eq_sum_ones S
    _ ≤ ∑ j ∈ S, (w.host j).outs.countP (Out.brings j i P) :=
        Finset.sum_le_sum fun j hj => List.countP_pos_iff.2 (hsent j hj)
    _ ≤ M.sentTo w i P := Finset.sum_le_sum_of_subset hS

theorem countP_congr {i' : ι} (hq' : Quiet w i') (hi' : i' ∈ M.hosts) {P : μ → Bool}
    (hsame : ∀ j ∈ M.hosts, ∀ o ∈ (w.host j).outs, o.brings j i P = o.brings j i' P) :
    (w.host i).received.countP P = (w.host i').received.countP P := by
  rw [hq.countP_eq hw hi, hq'.countP_eq hw hi']
  refine Finset.sum_congr rfl fun j hj => List.countP_congr fun o ho => ?_
  rw [hsame j (List.mem_toFinset.1 hj) o ho]

end Reached

end Quiet

theorem Step.host {w' : World ι σ μ ω} (h : M.Step G w w') (i : ι) :
    w'.host i = w.host i ∨ M.LocalStep G i (w.host i) (w'.host i) := by
  cases h with
  | @deliver k j m r hk hg hr =>
    by_cases hij : i = j
    · subst hij
      exact Or.inr ⟨_, r, hg, hr, (put_host_self ..).symm⟩
    · exact Or.inl (put_host_ne _ _ _ hij)
  | @act j a r hj hg hr =>
    by_cases hij : i = j
    · subst hij
      exact Or.inr ⟨_, r, hg, hr, (put_host_self ..).symm⟩
    · exact Or.inl (put_host_ne _ _ _ hij)

theorem sum_put {β : Type*} [AddCommMonoid β] (f : Host ι σ μ ω → β) (hi : i ∈ M.hosts)
    (net : List (ι × μ)) (r : Host ι σ μ ω × List (Out ι μ ω)) :
    ∑ j ∈ M.hosts.toFinset, f ((M.put w i net r).host j) =
      f r.1 + ∑ j ∈ M.hosts.toFinset.erase i, f (w.host j) := by
  rw [← Finset.add_sum_erase _ _ (List.mem_toFinset.2 hi), put_host_self]
  exact congrArg _ (Finset.sum_congr rfl fun j hj => by
    rw [put_host_ne _ _ _ (Finset.ne_of_mem_erase hj)])

theorem sum_put_eq {β : Type*} [AddCommMonoid β] (f : Host ι σ μ ω → β) (hi : i ∈ M.hosts)
    {net : List (ι × μ)} {r : Host ι σ μ ω × List (Out ι μ ω)} (hf : f r.1 = f (w.host i)) :
    ∑ j ∈ M.hosts.toFinset, f ((M.put w i net r).host j) = ∑ j ∈ M.hosts.toFinset, f (w.host j) := by
  rw [sum_put f hi, hf]
  exact Finset.add_sum_erase _ (fun j => f (w.host j)) (List.mem_toFinset.2 hi)

/-- A run keeps to a guard that holds of every message in flight, and of every step of a host. -/
theorem Reach.guarded {G' : Guard ι σ μ α ω} (h : M.Reach G w)
    (hnet : ∀ w, M.Reach G w → ∀ i m, (i, m) ∈ w.net → G' i (w.host i) (.recv m))
    (hact : ∀ w, M.Reach G w → ∀ i ∈ M.hosts, ∀ a, G' i (w.host i) (.act a)) : M.Reach G' w := by
  induction h with
  | refl => exact .refl
  | tail hw hs ih =>
    cases hs with
    | deliver hk _ hr => exact ih.tail (.deliver hk (hnet _ hw _ _ (List.mem_of_getElem? hk)) hr)
    | act hi _ hr => exact ih.tail (.act hi (hact _ hw _ hi _) hr)

end Machine

theorem card_le_countP {α β : Type*} [DecidableEq β] {l : List α} {P : α → Bool} {f : α → β}
    {S : Finset β} (h : ∀ b ∈ S, ∃ a ∈ l, P a = true ∧ f a = b) : S.card ≤ l.countP P := by
  have hsub : S ⊆ ((l.filter P).map f).toFinset := by
    intro b hb
    obtain ⟨a, ha, hP, rfl⟩ := h b hb
    exact List.mem_toFinset.2 (List.mem_map_of_mem (List.mem_filter.2 ⟨ha, hP⟩))
  calc S.card ≤ ((l.filter P).map f).toFinset.card := Finset.card_le_card hsub
    _ ≤ ((l.filter P).map f).length := List.toFinset_card_le _
    _ = l.countP P := by rw [List.length_map, List.countP_eq_length_filter]

theorem countP_le_card {α β : Type*} [DecidableEq β] {l : List α} {P : α → Bool} {f : α → β}
    (h : ∀ b, l.countP (fun a => P a && decide (f a = b)) ≤ 1) :
    l.countP P ≤ ((l.filter P).map f).toFinset.card := by
  have hnodup : ((l.filter P).map f).Nodup := by
    refine List.nodup_iff_count_le_one.2 fun b => ?_
    rw [List.count_eq_countP, List.countP_map, List.countP_filter]
    refine le_trans (List.countP_mono_left fun a _ ha => ?_) (h b)
    simpa [and_comm] using ha
  rw [List.toFinset_card_of_nodup hnodup, List.length_map, List.countP_eq_length_filter]

/-- **The highest value that a quorum has reached**: `T` of them are there or beyond, and fewer beyond. -/
theorem exists_highest {ι β : Type*} [LinearOrder β] (S : Finset ι) (f : ι → β) {T : ℕ} (hT : 0 < T)
    (hS : T ≤ S.card) : ∃ i ∈ S, T ≤ (S.filter fun j => f i ≤ f j).card ∧
      (S.filter fun j => f i < f j).card < T := by
  let R := S.filter fun i => T ≤ (S.filter fun j => f i ≤ f j).card
  have hR : R.Nonempty := by
    obtain ⟨i, hi, hmin⟩ := S.exists_min_image f (Finset.card_pos.1 (hT.trans_le hS))
    exact ⟨i, Finset.mem_filter.2 ⟨hi, by rwa [Finset.filter_true_of_mem hmin]⟩⟩
  obtain ⟨i, hi, hmax⟩ := R.exists_max_image f hR
  obtain ⟨hiS, hreached⟩ := Finset.mem_filter.1 hi
  refine ⟨i, hiS, hreached, not_le.1 fun hle => ?_⟩
  -- the lowest of those beyond would have been reached by a quorum
  obtain ⟨j, hj, hmin⟩ := (S.filter fun j => f i < f j).exists_min_image f
    (Finset.card_pos.1 (hT.trans_le hle))
  obtain ⟨hjS, hij⟩ := Finset.mem_filter.1 hj
  have hjR : j ∈ R := by
    refine Finset.mem_filter.2 ⟨hjS, hle.trans (Finset.card_le_card fun l hl => ?_)⟩
    exact Finset.mem_filter.2 ⟨(Finset.mem_filter.1 hl).1, hmin l hl⟩
  exact absurd hij (not_lt.2 (hmax j hjR))

/-! ## The tasks of one key -/

section Filter

variable {α : Type*} {l : List α} {p : α → Bool} {i : ℕ} {a : α}

theorem filter_eraseIdx_of_neg (hi : l[i]? = some a) (ha : p a = false) :
    (l.eraseIdx i).filter p = l.filter p := by
  induction l generalizing i with
  | nil => rfl
  | cons b l ih =>
    cases i with
    | zero =>
      obtain rfl := Option.some.inj hi
      simp [ha]
    | succ i =>
      rw [List.eraseIdx_cons_succ, List.filter_cons, List.filter_cons, ih hi]

theorem filter_eraseIdx_of_pos (hi : l[i]? = some a) (ha : p a = true) :
    ∃ n, (l.filter p)[n]? = some a ∧ (l.eraseIdx i).filter p = (l.filter p).eraseIdx n := by
  induction l generalizing i with
  | nil => simp at hi
  | cons b l ih =>
    cases i with
    | zero =>
      obtain rfl := Option.some.inj hi
      exact ⟨0, by simp [ha], by simp [ha]⟩
    | succ i =>
      obtain ⟨n, hn, he⟩ := ih hi
      by_cases hb : p b = true
      · exact ⟨n + 1, by simpa [hb] using hn, by simp [hb, he]⟩
      · exact ⟨n, by simpa [hb] using hn, by simp [hb, he]⟩

end Filter

namespace PoolCode

variable {κ τ J μ ο : Type} [DecidableEq κ] {C : PoolCode κ τ J μ ο} {x : Pool κ τ J μ ο}

/-- A task of key `k` that is followed. -/
def followed (k : κ) (keep : J → Bool) (t : κ × J) : Bool := decide (t.1 = k) && keep t.2

theorem filter_followed_self {k : κ} {keep : J → Bool} {js : List J} (h : ∀ j ∈ js, keep j = true) :
    (js.map (k, ·)).filter (followed k keep) = js.map (k, ·) :=
  List.filter_eq_self.2 fun t ht => by
    obtain ⟨j, hj, rfl⟩ := List.mem_map.1 ht
    simp [followed, h j hj]

theorem filter_followed_nil {k k' : κ} {keep : J → Bool} {js : List J}
    (h : k' = k → ∀ j ∈ js, keep j = false) : (js.map (k', ·)).filter (followed k keep) = [] :=
  List.filter_eq_nil_iff.2 fun t ht => by
    obtain ⟨j, hj, rfl⟩ := List.mem_map.1 ht
    by_cases hk : k' = k
    · simp [followed, h hk j hj]
    · simp [followed, hk]

theorem Serves.comeIn {init : τ} {step : κ → τ → J → τ → List J → List ο → Prop} {k : κ}
    {y : Pool κ τ J J (J × List ο)} (hy : (logged init step k).Serves y) (js : List J) :
    (logged init step k).Serves
      ⟨y.inst, y.tasks ++ js.map (k, ·), y.received ++ js, y.outs⟩ := by
  induction js generalizing y with
  | nil => simpa using hy
  | cons j js ih =>
    have h := ih (hy.recv j)
    simpa [logged] using h

/-- **The tasks of key `k` are a pool of their own**, with the log of what they did. Those that are not
followed do nothing, and leave nothing behind that is. An entry of the log is for a task that was there. -/
theorem Serves.atKey (hx : C.Serves x) (k : κ) (keep : J → Bool)
    (hdrop : ∀ y, C.Serves y → ∀ j s' js os, (k, j) ∈ y.tasks → C.step k (y.inst k) j s' js os →
      keep j = false → s' = y.inst k ∧ ∀ j' ∈ js, keep j' = false)
    (hkeep : ∀ y, C.Serves y → ∀ j s' js os, (k, j) ∈ y.tasks → C.step k (y.inst k) j s' js os →
      keep j = true → ∀ j' ∈ js, keep j' = true) :
    ∃ log, (logged C.init C.step k).Serves
      ⟨Function.update (fun _ => C.init) k (x.inst k), x.tasks.filter (followed k keep),
        ((x.received.flatMap C.spawn).filter (followed k keep)).map Prod.snd, log⟩ ∧
      ∀ e ∈ log, (∃ y, C.Serves y ∧ (k, e.1) ∈ y.tasks) ∧ ∀ o ∈ e.2, o ∈ x.outs := by
  induction hx with
  | start =>
    refine ⟨[], ?_, by simp⟩
    have h : (logged C.init C.step k).Serves ⟨fun _ => C.init, [], [], []⟩ := Serves.start
    simpa using h
  | @recv x m hx ih =>
    obtain ⟨log, hy, hlog⟩ := ih
    refine ⟨log, ?_, hlog⟩
    have hback : (((C.spawn m).filter (followed k keep)).map Prod.snd).map (k, ·) =
        (C.spawn m).filter (followed k keep) := by
      rw [List.map_map, List.map_congr_left (g := id), List.map_id]
      rintro ⟨k', j⟩ ht
      obtain ⟨rfl, -⟩ : k' = k ∧ keep j = true := by
        simpa [followed] using (List.mem_filter.1 ht).2
      rfl
    have h := hy.comeIn (((C.spawn m).filter (followed k keep)).map Prod.snd)
    rw [hback] at h
    simpa [List.filter_append, List.flatMap_append] using h
  | @job x i k' j s js os hx hi hs ih =>
    obtain ⟨log, hy, hlog⟩ := ih
    have hout : ∀ e ∈ log, (∃ y, C.Serves y ∧ (k, e.1) ∈ y.tasks) ∧ ∀ o ∈ e.2, o ∈ x.outs ++ os :=
      fun e he => ⟨(hlog e he).1, fun o ho => List.mem_append_left _ ((hlog e he).2 o ho)⟩
    by_cases hk : followed k keep (k', j) = true
    · -- a step of a task that is followed is a step of the pool
      obtain ⟨rfl, hj⟩ : k' = k ∧ keep j = true := by simpa [followed] using hk
      obtain ⟨n, hn, he⟩ := filter_eraseIdx_of_pos hi hk
      have hjs := hkeep x hx j s js os (List.mem_of_getElem? hi) hs hj
      have hstep : (logged C.init C.step k').step k'
          (Function.update (fun _ => C.init) k' (x.inst k') k') j s js [(j, os)] := by
        rw [Function.update_self]
        exact ⟨os, hs, rfl⟩
      refine ⟨log ++ [(j, os)], ?_, fun e hmem => ?_⟩
      · have h := hy.job hn hstep
        dsimp only at h ⊢
        rw [Function.update_self]
        rwa [Function.update_idem, ← he, ← filter_followed_self hjs, ← List.filter_append] at h
      · rcases List.mem_append.1 hmem with hmem | hmem
        · exact hout e hmem
        · rw [List.mem_singleton.1 hmem]
          exact ⟨⟨x, hx, List.mem_of_getElem? hi⟩, fun o ho => List.mem_append_right _ ho⟩
    · -- one of another key, or of a task that is not, leaves it as it is
      rw [Bool.not_eq_true] at hk
      have hsame : Function.update x.inst k' s k = x.inst k ∧
          (k' = k → ∀ j' ∈ js, keep j' = false) := by
        by_cases hkk : k' = k
        · subst hkk
          obtain ⟨rfl, hjs⟩ := hdrop x hx j s js os (List.mem_of_getElem? hi) hs
            (by simpa [followed] using hk)
          exact ⟨by rw [Function.update_self], fun _ => hjs⟩
        · exact ⟨Function.update_of_ne (Ne.symm hkk) _ _, fun h => absurd h hkk⟩
      refine ⟨log, ?_, hout⟩
      dsimp only
      rw [hsame.1, List.filter_append, filter_eraseIdx_of_neg hi hk, filter_followed_nil hsame.2,
        List.append_nil]
      exact hy

end PoolCode

end S2Pac.Lib
