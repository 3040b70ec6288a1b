import Mathlib.Data.Finset.Card
import Mathlib.Data.List.Infix
import Mathlib.Logic.Relation

/-!
# Searches that log what they visit

A search works off a queue over a successor map: an entry that is in the log is skipped, any other is
logged and its successors are put at the end of the queue. `WorksOff` is one such search and `Serves`
a series of them, one for each of a list of anchors, all with the same log.

A search logs, each once, exactly what is reached from its queue past entries that were not in the log
before (`WorksOff.mem_iff_beyond`, `WorksOff.nodup`).

Two series over the same anchors, of which the second leaves some out, end with the same log exactly
if every anchor that is left out was already logged when its turn came (`serves_eq_iff`). That is so
because an anchor comes before its successors in the log, so that an anchor that is only met below a
later one is logged too late.
-/

namespace S2Pac.Lib

variable {β : Type*} {succ : β → List β}

/-- `c` is met on the way down from `b`, or is `b`. -/
abbrev Below (succ : β → List β) : β → β → Prop := Relation.ReflTransGen fun b c => c ∈ succ b

/-- `WorksOff succ log queue log'`: with `log` logged, the search works off `queue` and ends with
`log'`. -/
inductive WorksOff (succ : β → List β) : List β → List β → List β → Prop
  | done {log : List β} : WorksOff succ log [] log
  | skip {log queue log' : List β} {b : β} : b ∈ log → WorksOff succ log queue log' →
      WorksOff succ log (b :: queue) log'
  | visit {log queue log' : List β} {b : β} : b ∉ log →
      WorksOff succ (log ++ [b]) (queue ++ succ b) log' → WorksOff succ log (b :: queue) log'

/-- A series of searches, one for each anchor. -/
inductive Serves (succ : β → List β) : List β → List β → List β → Prop
  | nil {log : List β} : Serves succ log [] log
  | cons {log log₁ log' anchors : List β} {a : β} : WorksOff succ log [a] log₁ →
      Serves succ log₁ anchors log' → Serves succ log (a :: anchors) log'

/-- The log holds the successors of its entries. -/
def SuccClosed (succ : β → List β) (log : List β) : Prop := ∀ b ∈ log, ∀ c ∈ succ b, c ∈ log

theorem SuccClosed.below {log : List β} (h : SuccClosed succ log) {b c : β} (hb : b ∈ log)
    (hc : Below succ b c) : c ∈ log := by
  induction hc with
  | refl => exact hb
  | tail _ hc ih => exact h _ ih _ hc

/-- `c` is met on the way down from `b` past nothing that is in `log`. -/
abbrev Beyond (succ : β → List β) (log : List β) : β → β → Prop :=
  Relation.ReflTransGen fun b c => c ∈ succ b ∧ c ∉ log

theorem Beyond.anti {log log' : List β} (hsub : log ⊆ log') {b c : β} (h : Beyond succ log' b c) :
    Beyond succ log b c :=
  Relation.ReflTransGen.mono (fun _ _ hs => ⟨hs.1, fun hc => hs.2 (hsub hc)⟩) _ _ h

/-! ## One search -/

namespace WorksOff

theorem unique {log queue l l' : List β} (h : WorksOff succ log queue l)
    (h' : WorksOff succ log queue l') : l = l' := by
  induction h with
  | done => cases h'; rfl
  | skip hb _ ih =>
    cases h' with
    | skip _ h' => exact ih h'
    | visit hb' _ => exact absurd hb hb'
  | visit hb _ ih =>
    cases h' with
    | skip hb' _ => exact absurd hb' hb
    | visit _ h' => exact ih h'

theorem isPrefix {log queue l : List β} (h : WorksOff succ log queue l) : log <+: l := by
  induction h with
  | done => exact List.prefix_refl _
  | skip _ _ ih => exact ih
  | visit _ _ ih => exact (List.prefix_append _ _).trans ih

theorem snoc_prefix {log queue l : List β} {b : β} (h : WorksOff succ log (b :: queue) l)
    (hb : b ∉ log) : log ++ [b] <+: l := by
  cases h with
  | skip hb' _ => exact absurd hb' hb
  | visit _ h => exact h.isPrefix

theorem mem_cases {log queue l : List β} (h : WorksOff succ log queue l) {x : β} (hx : x ∈ l) :
    x ∈ log ∨ ∃ b ∈ queue, Below succ b x := by
  induction h with
  | done => exact Or.inl hx
  | skip _ _ ih =>
    rcases ih hx with h | ⟨b, hb, hbx⟩
    · exact Or.inl h
    · exact Or.inr ⟨b, List.mem_cons_of_mem _ hb, hbx⟩
  | @visit log queue log' a _ _ ih =>
    rcases ih hx with h | ⟨b, hb, hbx⟩
    · rcases List.mem_append.1 h with h | h
      · exact Or.inl h
      · rw [List.mem_singleton.1 h]
        exact Or.inr ⟨a, List.mem_cons_self, Relation.ReflTransGen.refl⟩
    · rcases List.mem_append.1 hb with hb | hb
      · exact Or.inr ⟨b, List.mem_cons_of_mem _ hb, hbx⟩
      · exact Or.inr ⟨a, List.mem_cons_self, Relation.ReflTransGen.head hb hbx⟩

theorem queue_mem {log queue l : List β} (h : WorksOff succ log queue l) {b : β} (hb : b ∈ queue) :
    b ∈ l := by
  induction h with
  | done => exact absurd hb List.not_mem_nil
  | skip ha h ih =>
    rcases List.mem_cons.1 hb with rfl | hb
    · exact h.isPrefix.subset ha
    · exact ih hb
  | visit ha h ih =>
    rcases List.mem_cons.1 hb with rfl | hb
    · exact h.isPrefix.subset (List.mem_append_right _ (List.mem_singleton_self _))
    · exact ih (List.mem_append_left _ hb)

/-- What is logged and satisfies `P` has its successors in the log at the end, if what is missing at the
start is on the queue. -/
theorem closed_of {P : β → Prop} {log queue l : List β} (h : WorksOff succ log queue l)
    (hq : ∀ b ∈ log, P b → ∀ c ∈ succ b, c ∈ log ∨ c ∈ queue) :
    ∀ b ∈ l, P b → ∀ c ∈ succ b, c ∈ l := by
  induction h with
  | done =>
    intro b hb hP c hc
    rcases hq b hb hP c hc with h | h
    · exact h
    · exact absurd h List.not_mem_nil
  | skip ha _ ih =>
    refine ih fun b hb hP c hc => ?_
    rcases hq b hb hP c hc with h | h
    · exact Or.inl h
    · rcases List.mem_cons.1 h with rfl | h
      · exact Or.inl ha
      · exact Or.inr h
  | visit _ _ ih =>
    refine ih fun b hb hP c hc => ?_
    rcases List.mem_append.1 hb with hb | hb
    · rcases hq b hb hP c hc with h | h
      · exact Or.inl (List.mem_append_left _ h)
      · rcases List.mem_cons.1 h with rfl | h
        · exact Or.inl (List.mem_append_right _ (List.mem_singleton_self _))
        · exact Or.inr (List.mem_append_left _ h)
    · rw [List.mem_singleton.1 hb] at hc
      exact Or.inr (List.mem_append_right _ hc)

/-- A search leaves a closed log, if what is missing at its start is on the queue. -/
theorem succClosed {log queue l : List β} (h : WorksOff succ log queue l)
    (hq : ∀ b ∈ log, ∀ c ∈ succ b, c ∈ log ∨ c ∈ queue) : SuccClosed succ l :=
  fun b hb => h.closed_of (P := fun _ => True) (fun b hb _ => hq b hb) b hb trivial

theorem nodup {log queue l : List β} (h : WorksOff succ log queue l) (hlog : log.Nodup) :
    l.Nodup := by
  induction h with
  | done => exact hlog
  | skip _ _ ih => exact ih hlog
  | @visit log _ _ b hb _ ih =>
    apply ih
    rw [List.nodup_append]
    refine ⟨hlog, List.nodup_singleton b, fun x hx y hy hxy => hb ?_⟩
    rw [← List.mem_singleton.1 hy, ← hxy]
    exact hx

/-- **A search is exact**: it adds what is met below an entry of the queue past nothing that was in the
log before. -/
theorem mem_iff_beyond {log queue l : List β} (h : WorksOff succ log queue l) (x : β) :
    x ∈ l ↔ x ∈ log ∨ ∃ b ∈ queue, b ∉ log ∧ Beyond succ log b x := by
  constructor
  · intro hx
    induction h with
    | done => exact Or.inl hx
    | skip _ _ ih =>
      rcases ih hx with h | ⟨b, hb, hbl, hbx⟩
      · exact Or.inl h
      · exact Or.inr ⟨b, List.mem_cons_of_mem _ hb, hbl, hbx⟩
    | @visit log _ _ a ha _ ih =>
      rcases ih hx with h | ⟨b, hb, hbl, hbx⟩
      · rcases List.mem_append.1 h with h | h
        · exact Or.inl h
        · rw [List.mem_singleton.1 h]
          exact Or.inr ⟨a, List.mem_cons_self, ha, Relation.ReflTransGen.refl⟩
      · have hsub : log ⊆ log ++ [a] := List.subset_append_left _ _
        have hbl' : b ∉ log := fun h => hbl (hsub h)
        rcases List.mem_append.1 hb with hb | hb
        · exact Or.inr ⟨b, List.mem_cons_of_mem _ hb, hbl', hbx.anti hsub⟩
        · exact Or.inr ⟨a, List.mem_cons_self, ha,
            Relation.ReflTransGen.head ⟨hb, hbl'⟩ (hbx.anti hsub)⟩
  · rintro (hx | ⟨b, hb, hbl, hbx⟩)
    · exact h.isPrefix.subset hx
    · -- the path stays among the entries that are new, whose successors are logged
      have hnew := h.closed_of (P := fun y => y ∉ log) fun y hy hyl => absurd hy hyl
      have hpath : x ∈ l ∧ x ∉ log := by
        induction hbx with
        | refl => exact ⟨h.queue_mem hb, hbl⟩
        | tail _ hstep ih => exact ⟨hnew _ ih.1 ih.2 _ hstep.1, hstep.2⟩
      exact hpath.1

end WorksOff

/-- Over a finite universe every search ends: a visit uses up one of its members, and a skip shortens
the queue. -/
theorem exists_worksOff [DecidableEq β] (U : Finset β) (hU : ∀ b ∈ U, ∀ c ∈ succ b, c ∈ U)
    (log queue : List β) (hq : ∀ b ∈ queue, b ∈ U) : ∃ l, WorksOff succ log queue l := by
  induction hn : (U \ log.toFinset).card using Nat.strongRecOn generalizing log queue with
  | ind n ih =>
    induction queue with
    | nil => exact ⟨log, WorksOff.done⟩
    | cons b queue ihq =>
      have hrest : ∀ x ∈ queue, x ∈ U := fun x hx => hq x (List.mem_cons_of_mem _ hx)
      by_cases hb : b ∈ log
      · obtain ⟨l, hl⟩ := ihq hrest
        exact ⟨l, WorksOff.skip hb hl⟩
      · have hbU : b ∈ U := hq b List.mem_cons_self
        have hlt : (U \ (log ++ [b]).toFinset).card < n := by
          rw [← hn]
          refine Finset.card_lt_card (Finset.ssubset_iff_of_subset ?_ |>.2 ⟨b, ?_, ?_⟩)
          · intro x hx
            simp only [List.toFinset_append, Finset.mem_sdiff, Finset.mem_union] at hx ⊢
            exact ⟨hx.1, fun h => hx.2 (Or.inl h)⟩
          · simp [hbU, hb]
          · simp
        obtain ⟨l, hl⟩ := ih _ hlt (log ++ [b]) (queue ++ succ b) (fun x hx => by
          rcases List.mem_append.1 hx with hx | hx
          · exact hrest x hx
          · exact hU b hbU x hx) rfl
        exact ⟨l, WorksOff.visit hb hl⟩

/-! ## Series of searches -/

namespace Serves

theorem isPrefix {log anchors l : List β} (h : Serves succ log anchors l) : log <+: l := by
  induction h with
  | nil => exact List.prefix_refl _
  | cons hw _ ih => exact hw.isPrefix.trans ih

theorem snoc {log anchors l l' : List β} {a : β} (h : Serves succ log anchors l)
    (hw : WorksOff succ l [a] l') : Serves succ log (anchors ++ [a]) l' := by
  induction h with
  | nil => exact Serves.cons hw Serves.nil
  | cons hw' _ ih => exact Serves.cons hw' (ih hw)

theorem of_snoc {log anchors l : List β} {a : β} (h : Serves succ log (anchors ++ [a]) l) :
    ∃ l₁, Serves succ log anchors l₁ ∧ WorksOff succ l₁ [a] l := by
  induction anchors generalizing log with
  | nil =>
    cases h with
    | cons hw h => cases h; exact ⟨log, Serves.nil, hw⟩
  | cons b anchors ih =>
    cases h with
    | cons hw h =>
      obtain ⟨l₁, h₁, h₂⟩ := ih h
      exact ⟨l₁, Serves.cons hw h₁, h₂⟩

end Serves

theorem WorksOff.succClosed_singleton {log l : List β} {a : β} (h : WorksOff succ log [a] l)
    (hs : SuccClosed succ log) : SuccClosed succ l :=
  h.succClosed fun b hb c hc => Or.inl (hs b hb c hc)

/-- After a search from a closed log, exactly what was logged and what lies below the anchor is
logged. -/
theorem WorksOff.mem_iff {log l : List β} {a : β} (h : WorksOff succ log [a] l)
    (hs : SuccClosed succ log) (x : β) : x ∈ l ↔ x ∈ log ∨ Below succ a x := by
  constructor
  · intro hx
    rcases h.mem_cases hx with hx | ⟨b, hb, hbx⟩
    · exact Or.inl hx
    · rw [List.mem_singleton.1 hb] at hbx
      exact Or.inr hbx
  · rintro (hx | hx)
    · exact h.isPrefix.subset hx
    · exact (h.succClosed_singleton hs).below (h.queue_mem (List.mem_singleton_self a)) hx

/-- The anchors of a series with some left out: those whose flag is set. -/
def given (xs : List (β × Bool)) : List β := (xs.filter Prod.snd).map Prod.fst

/-- Every anchor that is left out lies strictly below the next one that is not, and there is one. -/
def Caught (succ : β → List β) (xs : List (β × Bool)) : Prop :=
  ∀ pre a post, xs = pre ++ (a, false) :: post → ∃ mid g post', post = mid ++ (g, true) :: post' ∧
    (∀ m ∈ mid, m.2 = false) ∧ Relation.TransGen (fun b c => c ∈ succ b) g a

theorem Caught.right {ys xs : List (β × Bool)} (h : Caught succ (ys ++ xs)) : Caught succ xs := by
  intro pre a post hx
  exact h (ys ++ pre) a post (by rw [hx, List.append_assoc])

theorem Caught.tail {x : β × Bool} {xs : List (β × Bool)} (h : Caught succ (x :: xs)) :
    Caught succ xs :=
  @Caught.right _ _ [x] _ h

theorem given_eq_of_caught {a : β} {xs : List (β × Bool)} (h : Caught succ ((a, false) :: xs)) :
    ∃ g rest, given xs = g :: rest ∧ Relation.TransGen (fun b c => c ∈ succ b) g a := by
  obtain ⟨mid, g, post', rfl, hmid, hg⟩ := h [] a xs rfl
  refine ⟨g, given post', ?_, hg⟩
  have hnil : mid.filter Prod.snd = [] := by
    rw [List.filter_eq_nil_iff]
    intro m hm
    simp [hmid m hm]
  simp [given, List.filter_append, hnil]

/-- Whether the anchors that are left out are found, with the first anchor worked off. -/
theorem found_cons_iff {x : β × Bool} {xs : List (β × Bool)} {log log₁ : List β}
    (hmem : ∀ b, b ∈ log₁ ↔ b ∈ log ∨ Below succ x.1 b) (hx : x.2 = false → x.1 ∈ log) :
    (∀ pre a post, x :: xs = pre ++ (a, false) :: post → a ∈ log ∨ ∃ y ∈ pre, Below succ y.1 a) ↔
      ∀ pre a post, xs = pre ++ (a, false) :: post → a ∈ log₁ ∨ ∃ y ∈ pre, Below succ y.1 a := by
  constructor
  · intro hall pre a post he
    rcases hall (x :: pre) a post (by rw [he, List.cons_append]) with ha | ⟨y, hy, hya⟩
    · exact Or.inl ((hmem a).2 (Or.inl ha))
    · rcases List.mem_cons.1 hy with rfl | hy
      · exact Or.inl ((hmem a).2 (Or.inr hya))
      · exact Or.inr ⟨y, hy, hya⟩
  · intro hall pre a post he
    cases pre with
    | nil =>
      obtain ⟨rfl, -⟩ := List.cons.inj he
      exact Or.inl (hx rfl)
    | cons y pre =>
      obtain ⟨rfl, hxs⟩ := List.cons.inj he
      rcases hall pre a post hxs with ha | ⟨z, hz, hza⟩
      · rcases (hmem a).1 ha with ha | ha
        · exact Or.inl ha
        · exact Or.inr ⟨_, List.mem_cons_self, ha⟩
      · exact Or.inr ⟨z, List.mem_cons_of_mem _ hz, hza⟩

/-- When an anchor that is not in the log is left out, the two logs go on with different blocks. -/
theorem serves_ne (hacyclic : ∀ b, ¬ Relation.TransGen (fun b c => c ∈ succ b) b b) {a : β}
    {xs : List (β × Bool)} (hc : Caught succ ((a, false) :: xs)) {log log₁ l l' : List β}
    (hs : SuccClosed succ log) (ha : a ∉ log) (hw : WorksOff succ log [a] log₁)
    (h : Serves succ log₁ (xs.map Prod.fst) l) (h' : Serves succ log (given xs) l') : l ≠ l' := by
  intro heq
  obtain ⟨g, rest, hg, hga⟩ := given_eq_of_caught hc
  rw [hg] at h'
  cases h' with
  | cons hw' h' =>
    have hgl : g ∉ log := fun hgl => ha (hs.below hgl hga.to_reflTransGen)
    have hpa := (hw.snoc_prefix ha).trans h.isPrefix
    have hpg := (hw'.snoc_prefix hgl).trans h'.isPrefix
    rw [← heq] at hpg
    obtain ⟨t, ht⟩ := List.prefix_of_prefix_length_le hpa hpg (by simp)
    rw [List.append_assoc, List.append_cancel_left_eq] at ht
    obtain rfl : a = g := (List.cons.inj ht).1
    exact hacyclic a hga

/-- **Leaving anchors out.** From a closed log, the series over all anchors and the series over those
whose flag is set end with the same log exactly if every anchor that is left out is in the log or
below an earlier anchor. -/
theorem serves_eq_iff (hacyclic : ∀ b, ¬ Relation.TransGen (fun b c => c ∈ succ b) b b)
    {xs : List (β × Bool)} (hc : Caught succ xs) {log l l' : List β} (hs : SuccClosed succ log)
    (h : Serves succ log (xs.map Prod.fst) l) (h' : Serves succ log (given xs) l') :
    l = l' ↔ ∀ pre a post, xs = pre ++ (a, false) :: post →
      a ∈ log ∨ ∃ x ∈ pre, Below succ x.1 a := by
  induction xs generalizing log with
  | nil =>
    cases h
    cases h'
    simp
  | cons x xs ih =>
    obtain ⟨a, flag⟩ := x
    rw [List.map_cons] at h
    cases h with
    | @cons _ log₁ _ _ _ hw h =>
      have hs₁ := hw.succClosed_singleton hs
      cases flag with
      | true =>
        have hgiven : given ((a, true) :: xs) = a :: given xs := by simp [given]
        rw [hgiven] at h'
        cases h' with
        | cons hw' h' =>
          rw [hw.unique hw'] at h hs₁
          rw [ih hc.tail hs₁ h h', found_cons_iff (hw'.mem_iff hs) (by simp)]
      | false =>
        have hgiven : given ((a, false) :: xs) = given xs := by simp [given]
        rw [hgiven] at h'
        by_cases ha : a ∈ log
        · -- the anchor that is left out changes nothing
          have hsame : log₁ = log := hw.unique (WorksOff.skip ha WorksOff.done)
          subst hsame
          rw [ih hc.tail hs h h', found_cons_iff (hw.mem_iff hs) fun _ => ha]
        · refine iff_of_false (serves_ne hacyclic hc hs ha hw h h') fun hall => ?_
          rcases hall [] a xs rfl with hal | ⟨z, hz, -⟩
          · exact absurd hal ha
          · exact absurd hz List.not_mem_nil

end S2Pac.Lib
