import Mathlib.Data.List.Dedup
import S2Pac.Coin

/-!
# The books of the elector

Sequences of calls of `Elector.Add`, with messages of any views. For each view one call names the leader,
the one with the first share of the `HightThreshold()`-th author, and only if the shares combine; a
repeated author changes nothing; and what is recorded stays (`elector_bookkeeping`).
-/

namespace S2Pac

variable {D : Type} {E : Env D}

namespace Elector

/-- The calls of `Add` with a sequence of messages, and their results; `none` where one panics. -/
def calls (E : Env D) : Elector → List ElectMsg → Option (Elector × List (Except ElectErr NodeID))
  | el, [] => some (el, [])
  | el, e :: es =>
    match el.add E e with
    | none => none
    | some (el', res) => (calls E el' es).map fun r => (r.1, res :: r.2)

/-- An earlier message is of the same view and author. -/
def Repeats (pre : List ElectMsg) (e : ElectMsg) : Prop :=
  ∃ e' ∈ pre, e'.view = e.view ∧ e'.author = e.author

instance (pre : List ElectMsg) (e : ElectMsg) : Decidable (Repeats pre e) := by
  unfold Repeats
  infer_instance

/-- A sequence without the repetitions; `pre` has come before. -/
def firsts (pre : List ElectMsg) : List ElectMsg → List ElectMsg
  | [] => []
  | e :: es =>
    if Repeats pre e then firsts (pre ++ [e]) es else e :: firsts (pre ++ [e]) es

/-- The authors of the messages for a view, each once. -/
def authors (view : ℤ) (es : List ElectMsg) : List NodeID :=
  ((es.filter fun e => e.view = view).map ElectMsg.author).dedup

/-- The result is not the error for a repeated author. -/
def answered : Except ElectErr NodeID → Bool
  | .error (.usedElect _ _) => false
  | _ => true

/-! ## Calls and runs -/

theorem calls_cons {el el₁ el' : Elector} {e : ElectMsg} {es : List ElectMsg}
    {rs : List (Except ElectErr NodeID)} {res : Except ElectErr NodeID}
    (hadd : el.add E e = some (el₁, res)) (hcalls : el₁.calls E es = some (el', rs)) :
    el.calls E (e :: es) = some (el', res :: rs) := by
  rw [calls, hadd]
  simp only [hcalls, Option.map_some]

theorem exists_of_calls_cons {el el' : Elector} {e : ElectMsg} {es : List ElectMsg}
    {rs : List (Except ElectErr NodeID)} (h : el.calls E (e :: es) = some (el', rs)) :
    ∃ el₁ res rs', el.add E e = some (el₁, res) ∧ el₁.calls E es = some (el', rs') ∧
      rs = res :: rs' := by
  unfold calls at h
  split at h
  · cases h
  · next el₁ res hadd =>
    obtain ⟨⟨el₂, rs'⟩, hcalls, he⟩ := Option.map_eq_some_iff.1 h
    cases he
    exact ⟨el₁, res, rs', hadd, hcalls, rfl⟩

theorem feed_of_calls {el el' : Elector} {es : List ElectMsg} {rs : List (Except ElectErr NodeID)}
    (h : el.calls E es = some (el', rs)) : el.feed E es = some el' := by
  induction es generalizing el rs with
  | nil =>
    cases h
    rfl
  | cons e es ih =>
    obtain ⟨el₁, res, rs', hadd, hcalls, -⟩ := exists_of_calls_cons h
    rw [feed, hadd]
    exact ih hcalls

theorem exists_calls {el el' : Elector} {es : List ElectMsg} (h : el.feed E es = some el') :
    ∃ rs, el.calls E es = some (el', rs) := by
  induction es generalizing el with
  | nil =>
    cases h
    exact ⟨[], rfl⟩
  | cons e es ih =>
    unfold feed at h
    split at h
    · cases h
    · next el₁ res hadd =>
      obtain ⟨rs, hrs⟩ := ih h
      exact ⟨res :: rs, calls_cons hadd hrs⟩

theorem length_of_calls {el el' : Elector} {es : List ElectMsg}
    {rs : List (Except ElectErr NodeID)} (h : el.calls E es = some (el', rs)) :
    rs.length = es.length := by
  induction es generalizing el rs with
  | nil =>
    cases h
    rfl
  | cons e es ih =>
    obtain ⟨el₁, res, rs', -, hcalls, rfl⟩ := exists_of_calls_cons h
    rw [List.length_cons, List.length_cons, ih hcalls]

theorem feed_append {el el₁ : Elector} {es : List ElectMsg} (h : el.feed E es = some el₁)
    (es' : List ElectMsg) : el.feed E (es ++ es') = el₁.feed E es' := by
  induction es generalizing el with
  | nil =>
    cases h
    rfl
  | cons e es ih =>
    unfold feed at h
    split at h
    · cases h
    · next el₂ res hadd =>
      rw [List.cons_append, feed, hadd]
      exact ih h

/-- A call within a sequence: the elector has been fed what comes before. -/
theorem call_at {el el' : Elector} {es : List ElectMsg} {rs : List (Except ElectErr NodeID)}
    (h : el.calls E es = some (el', rs)) {i : ℕ} {e : ElectMsg} {res : Except ElectErr NodeID}
    (he : es[i]? = some e) (hres : rs[i]? = some res) :
    ∃ el₁ el₂, el.feed E (es.take i) = some el₁ ∧ el₁.add E e = some (el₂, res) := by
  induction es generalizing el rs i with
  | nil => cases he
  | cons e' es ih =>
    obtain ⟨el₁, res', rs', hadd, hcalls, rfl⟩ := exists_of_calls_cons h
    cases i with
    | zero =>
      cases he
      cases hres
      exact ⟨el, el₁, rfl, hadd⟩
    | succ i =>
      obtain ⟨el₂, el₃, hfeed, hadd'⟩ := ih hcalls he hres
      refine ⟨el₂, el₃, ?_, hadd'⟩
      rw [List.take_succ_cons, feed, hadd]
      exact hfeed

/-! ## What is kept of a sequence -/

theorem kept_append (view : ℤ) (es es' : List ElectMsg) :
    kept view (es ++ es') = es'.foldl (keep view) (kept view es) := List.foldl_append

theorem exists_foldl_keep (view : ℤ) (es ks : List ElectMsg) :
    ∃ ks', es.foldl (keep view) ks = ks ++ ks' := by
  induction es generalizing ks with
  | nil => exact ⟨[], (List.append_nil ks).symm⟩
  | cons e es ih =>
    obtain ⟨ks', hks'⟩ := ih (keep view ks e)
    rw [List.foldl_cons, hks', keep]
    split
    · exact ⟨e :: ks', by rw [List.append_assoc, List.singleton_append]⟩
    · exact ⟨ks', rfl⟩

theorem mem_foldl_keep {view : ℤ} {e : ElectMsg} {es ks : List ElectMsg}
    (h : e ∈ es.foldl (keep view) ks) : e ∈ ks ∨ (e ∈ es ∧ e.view = view) := by
  induction es generalizing ks with
  | nil => exact Or.inl h
  | cons e' es ih =>
    rcases ih h with hk | ⟨he, hv⟩
    · unfold keep at hk
      split at hk
      · next hkeep =>
        rcases List.mem_append.1 hk with hk | he
        · exact Or.inl hk
        · obtain rfl := List.mem_singleton.1 he
          exact Or.inr ⟨List.mem_cons_self, hkeep.1⟩
      · exact Or.inl hk
    · exact Or.inr ⟨List.mem_cons_of_mem _ he, hv⟩

theorem author_mem_kept_iff {es : List ElectMsg} {e : ElectMsg} :
    e.author ∈ (kept e.view es).map ElectMsg.author ↔ Repeats es e := by
  constructor
  · intro h
    obtain ⟨e', he', ha⟩ := List.mem_map.1 h
    rcases mem_foldl_keep he' with hnil | ⟨hmem, hv⟩
    · exact absurd hnil List.not_mem_nil
    · exact ⟨e', hmem, hv, ha⟩
  · rintro ⟨e', he', hv, ha⟩
    rw [← ha]
    exact author_mem_kept he' hv

theorem nodup_foldl_keep {view : ℤ} (es : List ElectMsg) {ks : List ElectMsg}
    (h : (ks.map ElectMsg.author).Nodup) :
    ((es.foldl (keep view) ks).map ElectMsg.author).Nodup := by
  induction es generalizing ks with
  | nil => exact h
  | cons e es ih =>
    refine ih ?_
    unfold keep
    split
    · next hkeep =>
      rw [List.map_append, List.map_cons, List.map_nil]
      exact List.nodup_append.2 ⟨h, List.nodup_singleton _, fun a ha b hb hab =>
        hkeep.2 (List.mem_singleton.1 hb ▸ hab ▸ ha)⟩
    · exact h

theorem length_kept (view : ℤ) (es : List ElectMsg) :
    (kept view es).length = (authors view es).length := by
  have hnil : (([] : List ElectMsg).map ElectMsg.author).Nodup := List.nodup_nil
  have hnodup : ((kept view es).map ElectMsg.author).Nodup := nodup_foldl_keep es hnil
  have hmem : ∀ a, a ∈ (kept view es).map ElectMsg.author ↔ a ∈ authors view es := by
    intro a
    refine (author_mem_kept_iff (e := ⟨a, view, []⟩)).trans ?_
    simp only [authors, List.mem_dedup, List.mem_map, List.mem_filter, decide_eq_true_eq, Repeats,
      and_assoc]
  have hperm := (List.perm_ext_iff_of_nodup hnodup (List.nodup_dedup _)).2 hmem
  rw [← List.length_map ElectMsg.author, hperm.length_eq]
  rfl

theorem kept_concat {es : List ElectMsg} {e : ElectMsg} (h : ¬ Repeats es e) :
    kept e.view (es ++ [e]) = kept e.view es ++ [e] := by
  rw [kept_append, List.foldl_cons, List.foldl_nil, keep, if_pos]
  exact ⟨rfl, fun ha => h (author_mem_kept_iff.1 ha)⟩

theorem used_iff {pre : List ElectMsg} {el : Elector} (h : new.feed E pre = some el)
    (e : ElectMsg) : e.author ∈ (el.aggregator e.view).used ↔ Repeats pre e := by
  rw [(holds_of_feed h (holds_new e.view)).used, ← author_mem_kept_iff]
  rfl

/-! ## Results -/

theorem answered_of_add {el el' : Elector} {e : ElectMsg} {res : Except ElectErr NodeID}
    (h : el.add E e = some (el', res)) (hused : e.author ∉ (el.aggregator e.view).used) :
    answered res = true := by
  cases keeps_of_add h hused with
  | counted _ => rfl
  | failed _ _ => rfl
  | elected _ _ _ => rfl

theorem add_ok_iff {el el' : Elector} {e : ElectMsg} {res : Except ElectErr NodeID}
    (h : el.add E e = some (el', res)) {leader : NodeID} (hne : leader ≠ NONE) :
    res = .ok leader ↔ e.author ∉ (el.aggregator e.view).used ∧
      ((el.aggregator e.view).elects ++ [e]).length = E.hightThreshold ∧
      ∃ qc, E.recover (e.hash E)
          (((el.aggregator e.view).elects ++ [e]).map ElectMsg.sigShare) = some qc ∧
        leaderOf E qc = some leader := by
  rw [List.length_append, List.length_singleton]
  by_cases hused : e.author ∈ (el.aggregator e.view).used
  · rw [add_used hused] at h
    cases h
    simp [hused]
  · cases keeps_of_add h hused with
    | counted hlen => simp [hlen, hne.symm]
    | failed _ hrec =>
      rw [hrec]
      simp
    | elected hlen hrec hleader =>
      rw [hrec]
      simp [hused, hlen, hleader]

/-- **When a call in a sequence names a leader**: with the first share of its author, if that makes
`HightThreshold()` authors of the view and their shares combine. -/
theorem result_iff {es : List ElectMsg} {el : Elector} {rs : List (Except ElectErr NodeID)}
    (h : new.calls E es = some (el, rs)) {i : ℕ} {e : ElectMsg} {res : Except ElectErr NodeID}
    (he : es[i]? = some e) (hres : rs[i]? = some res) {leader : NodeID} (hne : leader ≠ NONE) :
    res = .ok leader ↔ ¬ Repeats (es.take i) e ∧
      (kept e.view (es.take (i + 1))).length = E.hightThreshold ∧
      ∃ qc, E.recover (e.hash E) ((kept e.view (es.take (i + 1))).map ElectMsg.sigShare) = some qc ∧
        leaderOf E qc = some leader := by
  obtain ⟨el₁, el₂, hfeed, hadd⟩ := call_at h he hres
  have hholds : Holds E el₁ e.view (kept e.view (es.take i)) :=
    holds_of_feed hfeed (holds_new e.view)
  have htake : es.take (i + 1) = es.take i ++ [e] := by
    rw [List.take_add_one, he, Option.toList_some]
  rw [add_ok_iff hadd hne, used_iff hfeed e, hholds.elects, htake]
  refine and_congr_right fun hfirst => ?_
  rw [kept_concat hfirst]

theorem not_lt_of_results {es : List ElectMsg} {el : Elector} {rs : List (Except ElectErr NodeID)}
    (h : new.calls E es = some (el, rs)) {i j : ℕ} {e e' : ElectMsg} {leader leader' : NodeID}
    (he : es[i]? = some e) (he' : es[j]? = some e') (hv : e.view = e'.view)
    (hres : rs[i]? = some (.ok leader)) (hres' : rs[j]? = some (.ok leader'))
    (hne : leader ≠ NONE) (hne' : leader' ≠ NONE) : ¬ i < j := by
  intro hij
  obtain ⟨-, hlen, -⟩ := (result_iff h he hres hne).1 rfl
  obtain ⟨hfirst', hlen', -⟩ := (result_iff h he' hres' hne').1 rfl
  have htake : es.take (j + 1) = es.take j ++ [e'] := by
    rw [List.take_add_one, he', Option.toList_some]
  rw [htake, kept_concat hfirst', List.length_append, List.length_singleton] at hlen'
  -- the threshold was reached before
  obtain ⟨ks, hks⟩ := exists_foldl_keep e'.view ((es.take j).drop (i + 1)) (kept e'.view (es.take (i + 1)))
  have hsplit : es.take j = es.take (i + 1) ++ (es.take j).drop (i + 1) := by
    have htt : (es.take j).take (i + 1) = es.take (i + 1) := by
      rw [List.take_take, Nat.min_eq_left hij]
    rw [← htt, List.take_append_drop]
  rw [hsplit, kept_append, hks, List.length_append, ← hv, hlen] at hlen'
  omega

/-- **Repetitions can be left out**: the elector is the same in the end, and so are the results of the
other calls. -/
theorem calls_firsts {pre : List ElectMsg} {el : Elector} (h : new.feed E pre = some el)
    (es : List ElectMsg) :
    el.calls E (firsts pre es) = (el.calls E es).map fun r => (r.1, r.2.filter answered) := by
  induction es generalizing pre el with
  | nil => rfl
  | cons e es ih =>
    by_cases hrep : Repeats pre e
    · have hadd := add_used (E := E) ((used_iff h e).2 hrep)
      have hnext : new.feed E (pre ++ [e]) = some el := by
        rw [feed_append h, feed, hadd]
        rfl
      rw [firsts, if_pos hrep, ih hnext, calls, hadd]
      dsimp only
      rw [Option.map_map]
      rfl
    · rw [firsts, if_neg hrep, calls, calls]
      cases hadd : el.add E e with
      | none => rfl
      | some r =>
        obtain ⟨el', res⟩ := r
        have hnext : new.feed E (pre ++ [e]) = some el' := by
          rw [feed_append h, feed, hadd]
          rfl
        have hanswered := answered_of_add hadd fun hu => hrep ((used_iff h e).1 hu)
        dsimp only
        rw [ih hnext]
        cases el'.calls E es with
        | none => rfl
        | some r => simp [hanswered]

theorem leaders_of_feed {es es' : List ElectMsg} {el el' : Elector}
    (h : new.feed E es = some el) (h' : el.feed E es' = some el') {view : ℤ} {leader : NodeID}
    (hl : el.leaders view = some leader) : el'.leaders view = some leader := by
  have hholds : Holds E el view (kept view es) := holds_of_feed h (holds_new view)
  have hlead := hholds.leaders
  rw [hl] at hlead
  obtain ⟨ks, hks⟩ := exists_foldl_keep view es' (kept view es)
  rw [(holds_of_feed h' hholds).leaders, hks]
  by_cases hlen : E.hightThreshold ≤ (kept view es).length
  · rw [if_pos hlen] at hlead
    rw [if_pos (by rw [List.length_append]; omega), outcome_append hlen, hlead]
  · rw [if_neg hlen] at hlead
    cases hlead

end Elector

/-- **The books of the elector.** Whatever messages `Add` is called with, of whatever views:
* the results are those of the sequence without repeated authors, with an error at every repetition;
* `Add` panics at most on a combined signature of fewer than four bytes;
* a call names a leader exactly when it has the first share of the `HightThreshold()`-th author of its view
  and the shares combine, and this happens once for a view;
* a repetition is answered with an error and changes nothing;
* what is recorded for a view stays. -/
theorem elector_bookkeeping (E : Env D) (es : List ElectMsg) :
    Elector.new.calls E (Elector.firsts [] es) =
        (Elector.new.calls E es).map (fun r => (r.1, r.2.filter Elector.answered)) ∧
      (1 ≤ E.n → (∀ digest shares qc, E.recover digest shares = some qc → 4 ≤ qc.length) →
        (Elector.new.calls E es).isSome) ∧
      ∀ el results, Elector.new.calls E es = some (el, results) →
        results.length = es.length ∧
        (∀ (i : ℕ) e res leader, es[i]? = some e → results[i]? = some res → leader ≠ NONE →
          (res = .ok leader ↔ ¬ Elector.Repeats (es.take i) e ∧
            (Elector.authors e.view (es.take (i + 1))).length = E.hightThreshold ∧
            ∃ qc, E.recover (e.hash E)
                ((Elector.kept e.view (es.take (i + 1))).map ElectMsg.sigShare) = some qc ∧
              leaderOf E qc = some leader)) ∧
        (∀ (i j : ℕ) e e' leader leader', es[i]? = some e → es[j]? = some e' → e.view = e'.view →
          results[i]? = some (.ok leader) → results[j]? = some (.ok leader') → leader ≠ NONE →
          leader' ≠ NONE → i = j) ∧
        (∀ e, Elector.Repeats es e →
          el.add E e = some (el, .error (.usedElect e.view e.author))) ∧
        ∀ es' el', el.feed E es' = some el' → ∀ view leader, el.leaders view = some leader →
          el'.leaders view = some leader := by
  refine ⟨Elector.calls_firsts rfl es, ?_, ?_⟩
  · intro _ hlen
    obtain ⟨el, hel⟩ := Elector.exists_feed hlen es Elector.new
    obtain ⟨results, hresults⟩ := Elector.exists_calls hel
    rw [hresults]
    rfl
  · intro el results h
    have hfeed := Elector.feed_of_calls h
    refine ⟨Elector.length_of_calls h, ?_, ?_, ?_, ?_⟩
    · intro i e res leader he hres hne
      rw [← Elector.length_kept]
      exact Elector.result_iff h he hres hne
    · intro i j e e' leader leader' he he' hv hres hres' hne hne'
      have hij := Elector.not_lt_of_results h he he' hv hres hres' hne hne'
      have hji := Elector.not_lt_of_results h he' he hv.symm hres' hres hne' hne
      omega
    · intro e hrep
      exact Elector.add_used ((Elector.used_iff hfeed e).2 hrep)
    · intro es' el' hfeed' view leader hl
      exact Elector.leaders_of_feed hfeed hfeed' hl

/-- The shares of nodes 0, 1 and 2 for view 0, with a repetition and a share for another view among them. -/
theorem elector_bookkeeping_four :
    ((Elector.new.calls (Env.plain 4 fun _ => 3)
        [⟨0, 0, []⟩, ⟨1, 0, []⟩, ⟨0, 0, [1]⟩, ⟨1, 7, []⟩, ⟨2, 0, []⟩]).map Prod.snd) =
      some [.ok NONE, .ok NONE, .error (.usedElect 0 0), .ok NONE, .ok 3] ∧
    ∃ el results, Elector.new.calls (Env.plain 4 fun _ => 3)
        [⟨0, 0, []⟩, ⟨1, 0, []⟩, ⟨0, 0, [1]⟩, ⟨1, 7, []⟩, ⟨2, 0, []⟩] = some (el, results) ∧
      results.length = 5 ∧
      el.add (Env.plain 4 fun _ => 3) ⟨2, 0, [1]⟩ = some (el, .error (.usedElect 0 2)) := by
  obtain ⟨-, hsome, hbooks⟩ := elector_bookkeeping (Env.plain 4 fun _ => 3)
    [⟨0, 0, []⟩, ⟨1, 0, []⟩, ⟨0, 0, [1]⟩, ⟨1, 7, []⟩, ⟨2, 0, []⟩]
  have hlong : ∀ digest shares qc,
      (Env.plain 4 fun _ => 3).recover digest shares = some qc → 4 ≤ qc.length := by
    intro digest shares qc h
    rw [← Option.some.inj h]
    exact Nat.le_refl 4
  obtain ⟨⟨el, results⟩, hcalls⟩ := Option.isSome_iff_exists.1 (hsome (by decide) hlong)
  obtain ⟨hlength, -, -, hrepeat, -⟩ := hbooks el results hcalls
  exact ⟨by decide, el, results, hcalls, hlength, hrepeat ⟨2, 0, [1]⟩ (by decide)⟩

end S2Pac
