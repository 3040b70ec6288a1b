import Mathlib.Data.Set.Finite.Lattice
import Mathlib.Data.Finset.Dedup
import S2Pac.Lib.Search
import S2Pac.Commitor

/-!
# The traversal of the DAG commitor

`DAGCommitor.run` puts what a block refers to on its queue without a test and looks at
`committedBlcoks` only when a block comes off the queue. Over a store that does not change that is a
search over the references that are in the store (`Feed.drains_search`): it ends, and emits what is
reached past uncommitted blocks, whatever is missing and whatever cycles there are
(`dag_traversal_exact`).

The store does change between two traversals. A reference that is missing when its block is emitted is
passed over, and the block is never looked at again: a late block is emitted if none of the blocks
that refer to it was emitted too early (`late_blocks_emitted`), and may be lost otherwise
(`late_block_lost`).
-/

set_option linter.unusedSectionVars false

namespace S2Pac

open Lib DAGCommitor

variable {D : Type} [DecidableEq D] {E : Env D} {st : Store D}

/-- A finite store that holds every block under its hash. References may be missing or lead back. -/
structure OwnStore (E : Env D) (st : Store D) : Prop where
  own : ∀ d b, getBlock st d = some b → b.hash E = d
  finite : {d | (getBlock st d).isSome}.Finite

/-- Finitely many blocks that the hash tells apart, with what they refer to in the store. -/
structure Universe (E : Env D) (st : Store D) (U : Block D → Prop) : Prop where
  hash_inj : ∀ a b, U a → U b → a.hash E = b.hash E → a = b
  resolved : ∀ b, U b → ∀ c ∈ resolved st b, U c
  finite : {b | U b}.Finite

theorem Universe.exists_worksOff {U : Block D → Prop} (hU : Universe E st U)
    (seen queue : List (Block D)) (hq : ∀ b ∈ queue, U b) :
    ∃ l, WorksOff (DAGCommitor.resolved st) seen queue l := by
  refine Lib.exists_worksOff hU.finite.toFinset (fun b hb c hc => ?_) seen queue fun b hb => ?_
  · exact hU.finite.mem_toFinset.2 (hU.resolved b (hU.finite.mem_toFinset.1 hb) c hc)
  · exact hU.finite.mem_toFinset.2 (hq b hb)

namespace OwnStore

theorem stored (h : OwnStore E st) {d : D} {b : Block D} (hb : getBlock st d = some b) :
    Stored E st b := by
  unfold Stored
  rw [h.own d b hb]
  exact hb

theorem stored_of_resolved (h : OwnStore E st) {b c : Block D} (hc : c ∈ resolved st b) :
    Stored E st c := by
  obtain ⟨qc, -, hqc⟩ := List.mem_filterMap.1 hc
  exact h.stored hqc

theorem hash_inj {a b : Block D} (ha : Stored E st a) (hb : Stored E st b)
    (hh : a.hash E = b.hash E) : a = b := by
  unfold Stored at ha hb
  rw [hh, hb] at ha
  exact (Option.some.inj ha).symm

theorem blocks (h : OwnStore E st) : Universe E st (Stored E st) where
  hash_inj _ _ ha hb hh := hash_inj ha hb hh
  resolved _ _ _ hc := h.stored_of_resolved hc
  finite := by
    refine Set.Finite.of_finite_image (f := Block.hash E) (h.finite.subset ?_)
      fun a ha b hb hh => hash_inj ha hb hh
    rintro _ ⟨b, hb, rfl⟩
    have : getBlock st (b.hash E) = some b := hb
    simp [this]

end OwnStore

/-! ## One traversal -/

namespace Feed

/-- `run` is back at its head, has emitted `new` on the way and has taken nothing off the channel. -/
structure Drained (E : Env D) (s : Feed D) (new : List (Block D)) (s' : Feed D) : Prop where
  log : s'.log = s.log ++ new
  committed : ∀ d, d ∈ s'.commitor.committedBlcoks ↔
    d ∈ s.commitor.committedBlcoks ∨ ∃ x ∈ new, x.hash E = d
  work : s'.commitor.work = .idle
  chan : s'.commitor.blocksChan = s.commitor.blocksChan

/-- **The queue loop is a search.** `seen` are the blocks of the universe that are committed. -/
theorem drains_search {U : Block D → Prop} (hU : Universe E st U) {seen queue l : List (Block D)}
    (hwo : WorksOff (resolved st) seen queue l) (s : Feed D) (hw : s.commitor.work = .bfs queue)
    (hq : ∀ b ∈ queue, U b)
    (hseen : ∀ b, U b → (b.hash E ∈ s.commitor.committedBlcoks ↔ b ∈ seen)) :
    ∃ s' new, Drains (DAGCommitor.run E st) s s' ∧ l = seen ++ new ∧ Drained E s new s' := by
  induction hwo generalizing s with
  | @done seen =>
    have hr : DAGCommitor.run E st s.commitor = some ({ s.commitor with work := .idle }, []) := by
      simp [DAGCommitor.run, hw]
    refine ⟨_, [], Relation.ReflTransGen.single (Runs.step hr), (List.append_nil seen).symm, ?_⟩
    exact ⟨rfl, by simp, rfl, rfl⟩
  | @skip seen queue l b hb _ ih =>
    have hcom := (hseen b (hq b List.mem_cons_self)).2 hb
    have hr : DAGCommitor.run E st s.commitor =
        some ({ s.commitor with work := .bfs queue }, []) := by
      simp [DAGCommitor.run, hw, hcom]
    obtain ⟨s', new, hd, hl, hs'⟩ := ih
      ⟨{ s.commitor with work := .bfs queue }, s.calls, s.passed, s.log ++ []⟩ rfl
      (fun x hx => hq x (List.mem_cons_of_mem _ hx)) hseen
    refine ⟨s', new, Relation.ReflTransGen.head (Runs.step hr) hd, hl, ?_, hs'.committed, hs'.work,
      hs'.chan⟩
    rw [hs'.log, List.append_nil]
  | @visit seen queue l b hb _ ih =>
    have hbU := hq b List.mem_cons_self
    have hcom : b.hash E ∉ s.commitor.committedBlcoks := fun hc => hb ((hseen b hbU).1 hc)
    have hr : DAGCommitor.run E st s.commitor =
        some ({ s.commitor with committedBlcoks := b.hash E :: s.commitor.committedBlcoks
                                work := .bfs (queue ++ resolved st b) }, [b]) := by
      simp [DAGCommitor.run, hw, hcom]
    have hq' : ∀ x ∈ queue ++ resolved st b, U x := by
      intro x hx
      rcases List.mem_append.1 hx with hx | hx
      · exact hq x (List.mem_cons_of_mem _ hx)
      · exact hU.resolved b hbU x hx
    have hseen' : ∀ x, U x →
        (x.hash E ∈ b.hash E :: s.commitor.committedBlcoks ↔ x ∈ seen ++ [b]) := by
      intro x hx
      rw [List.mem_cons, hseen x hx, List.mem_append, List.mem_singleton]
      constructor
      · rintro (h | h)
        · exact Or.inr (hU.hash_inj x b hx hbU h)
        · exact Or.inl h
      · rintro (h | rfl)
        · exact Or.inr h
        · exact Or.inl rfl
    obtain ⟨s', new, hd, hl, hs'⟩ := ih
      ⟨{ s.commitor with committedBlcoks := b.hash E :: s.commitor.committedBlcoks
                         work := .bfs (queue ++ resolved st b) }, s.calls, s.passed, s.log ++ [b]⟩
      rfl hq' hseen'
    refine ⟨s', b :: new, Relation.ReflTransGen.head (Runs.step hr) hd, ?_, ?_, fun d => ?_,
      hs'.work, hs'.chan⟩
    · rw [hl, List.append_assoc]
      rfl
    · rw [hs'.log, List.append_assoc]
      rfl
    · rw [hs'.committed, List.mem_cons]
      simp only [List.mem_cons, exists_eq_or_imp, eq_comm (a := d)]
      tauto

theorem runs_take {s : Feed D} {b : Block D} {rest : List (Block D)} (hw : s.commitor.work = .idle)
    (hch : s.commitor.blocksChan = b :: rest) :
    Runs (DAGCommitor.run E st) s
      ⟨{ s.commitor with blocksChan := rest, work := .bfs [b] }, s.calls, s.passed, s.log⟩ := by
  have hr : DAGCommitor.run E st s.commitor =
      some ({ s.commitor with blocksChan := rest, work := .bfs [b] }, []) := by
    simp [DAGCommitor.run, hw, hch]
  have hstep := Runs.step hr
  rwa [List.append_nil] at hstep

theorem quiet_iff_of_work {s : Feed D}
    (h : s.commitor.work = .idle ∨ ∃ queue, s.commitor.work = .bfs queue) :
    Quiet (DAGCommitor.run E st) s ↔ s.commitor.work = .idle ∧ s.commitor.blocksChan = [] := by
  unfold Quiet DAGCommitor.run
  rcases h with hw | ⟨queue, hw⟩
  · rw [hw]
    cases hch : s.commitor.blocksChan with
    | nil => simp
    | cons b rest => simp
  · rw [hw]
    cases queue with
    | nil => simp
    | cons b rest =>
      by_cases hcom : b.hash E ∈ s.commitor.committedBlcoks
      · simp [hcom]
      · simp [hcom]

theorem exists_seen {U : Block D → Prop} (hU : Universe E st U) (committed : List D) :
    ∃ seen : List (Block D), seen.Nodup ∧ ∀ b, b ∈ seen ↔ U b ∧ b.hash E ∈ committed := by
  have hfin : {b | U b ∧ b.hash E ∈ committed}.Finite := hU.finite.subset fun b hb => hb.1
  exact ⟨hfin.toFinset.toList, Finset.nodup_toList _, fun b => by simp⟩

theorem exists_drained {U : Block D → Prop} (hU : Universe E st U) {s : Feed D}
    {queue : List (Block D)} (hw : s.commitor.work = .bfs queue) (hq : ∀ b ∈ queue, U b) :
    ∃ s' new, Drains (DAGCommitor.run E st) s s' ∧ Drained E s new s' := by
  obtain ⟨seen, -, hseen⟩ := exists_seen hU s.commitor.committedBlcoks
  obtain ⟨l, hl⟩ := hU.exists_worksOff seen queue hq
  obtain ⟨s', new, hd, -, hs'⟩ := drains_search hU hl s hw hq fun b hb => by rw [hseen]; simp [hb]
  exact ⟨s', new, hd, hs'⟩

theorem exists_quiet_of_chan {U : Block D → Prop} (hU : Universe E st U) (chan : List (Block D))
    {s : Feed D} (hw : s.commitor.work = .idle) (hch : s.commitor.blocksChan = chan)
    (hchan : ∀ b ∈ chan, U b) :
    ∃ s', Drains (DAGCommitor.run E st) s s' ∧ Quiet (DAGCommitor.run E st) s' := by
  induction chan generalizing s with
  | nil => exact ⟨s, Relation.ReflTransGen.refl, (quiet_iff_of_work (Or.inl hw)).2 ⟨hw, hch⟩⟩
  | cons b rest ih =>
    obtain ⟨s₁, new, hd₁, hs₁⟩ := exists_drained hU
      (s := ⟨{ s.commitor with blocksChan := rest, work := .bfs [b] }, s.calls, s.passed, s.log⟩) rfl
      fun x hx => by
        rw [List.mem_singleton.1 hx]
        exact hchan b List.mem_cons_self
    obtain ⟨s', hd, hq⟩ := ih hs₁.work hs₁.chan fun x hx => hchan x (List.mem_cons_of_mem _ hx)
    exact ⟨s', Relation.ReflTransGen.head (runs_take hw hch) (hd₁.trans hd), hq⟩

/-- **Whatever is on the queue and on the channel, `run` works it off.** -/
theorem exists_quiet_of_universe {U : Block D → Prop} (hU : Universe E st U) {s : Feed D}
    (hwork : s.commitor.work = .idle ∨ ∃ queue, s.commitor.work = .bfs queue)
    (hpending : ∀ b ∈ s.commitor.work.pending, U b) (hchan : ∀ b ∈ s.commitor.blocksChan, U b) :
    ∃ s', Drains (DAGCommitor.run E st) s s' ∧ Quiet (DAGCommitor.run E st) s' := by
  rcases hwork with hw | ⟨queue, hw⟩
  · exact exists_quiet_of_chan hU _ hw rfl hchan
  · rw [hw] at hpending
    obtain ⟨s₁, new, hd₁, hs₁⟩ := exists_drained hU hw hpending
    obtain ⟨s', hd, hq⟩ := exists_quiet_of_chan hU _ hs₁.work hs₁.chan hchan
    exact ⟨s', hd₁.trans hd, hq⟩

end Feed

/-- `x` is reached from `b` over references that are in the store, and neither is committed nor
anything on the way. -/
def Reached (E : Env D) (st : Store D) (committed : List D) (b x : Block D) : Prop :=
  b.hash E ∉ committed ∧
    Relation.ReflTransGen (fun y z => z ∈ resolved st y ∧ z.hash E ∉ committed) b x

/-- What the committed blocks of the store refer to is committed. -/
def ClosedUnder (st : Store D) (committed : List D) : Prop :=
  ∀ d ∈ committed, ∀ b, getBlock st d = some b → ∀ qc ∈ b.references, qc.parentBlockHash ∈ committed

theorem Reached.below {committed : List D} {b x : Block D} (h : Reached E st committed b x) :
    Below (resolved st) b x :=
  Relation.ReflTransGen.mono (fun _ _ hstep => hstep.1) _ _ h.2

theorem Reached.not_committed {committed : List D} {b x : Block D} (h : Reached E st committed b x) :
    x.hash E ∉ committed := by
  rcases Relation.ReflTransGen.cases_tail h.2 with rfl | ⟨_, -, hstep⟩
  · exact h.1
  · exact hstep.2

theorem reached_iff_beyond {U : Block D → Prop} (hU : Universe E st U) {committed : List D}
    {seen : List (Block D)} (hseen : ∀ b, b ∈ seen ↔ U b ∧ b.hash E ∈ committed) {b x : Block D}
    (hb : U b) : Reached E st committed b x ↔ b ∉ seen ∧ Beyond (resolved st) seen b x := by
  have hiff : ∀ y, U y → (y.hash E ∉ committed ↔ y ∉ seen) := by
    intro y hy
    rw [hseen, not_and]
    exact ⟨fun h _ => h, fun h => h hy⟩
  unfold Reached
  rw [hiff b hb]
  refine and_congr_right fun _ => ⟨fun h => ?_, fun h => ?_⟩
  · have hU' : Beyond (resolved st) seen b x ∧ U x := by
      induction h with
      | refl => exact ⟨Relation.ReflTransGen.refl, hb⟩
      | tail _ hstep ih =>
        have hz := hU.resolved _ ih.2 _ hstep.1
        exact ⟨ih.1.tail ⟨hstep.1, (hiff _ hz).1 hstep.2⟩, hz⟩
    exact hU'.1
  · have hU' : Relation.ReflTransGen
        (fun y z => z ∈ resolved st y ∧ z.hash E ∉ committed) b x ∧ U x := by
      induction h with
      | refl => exact ⟨Relation.ReflTransGen.refl, hb⟩
      | tail _ hstep ih =>
        have hz := hU.resolved _ ih.2 _ hstep.1
        exact ⟨ih.1.tail ⟨hstep.1, (hiff _ hz).2 hstep.2⟩, hz⟩
    exact hU'.1

/-- Below a block, what is not committed is reached, when the committed blocks are closed. -/
theorem reached_of_below (hst : OwnStore E st) {committed : List D}
    (hclosed : ClosedUnder st committed) {b x : Block D} (hb : Stored E st b)
    (h : Below (resolved st) b x) (hx : x.hash E ∉ committed) : Reached E st committed b x := by
  induction h with
  | refl => exact ⟨hx, Relation.ReflTransGen.refl⟩
  | @tail y z hby hstep ih =>
    have hy : Stored E st y := by
      clear ih hx hstep
      induction hby with
      | refl => exact hb
      | tail _ hs _ => exact hst.stored_of_resolved hs
    have hyc : y.hash E ∉ committed := by
      intro hyc
      obtain ⟨qc, hqc, hget⟩ := List.mem_filterMap.1 hstep
      have := hclosed _ hyc y hy qc hqc
      rw [← hst.own _ _ hget] at this
      exact hx this
    exact ⟨(ih hyc).1, (ih hyc).2.tail ⟨hstep, hx⟩⟩

theorem OwnStore.stored_of_reached (hst : OwnStore E st) {committed : List D} {b x : Block D}
    (hb : Stored E st b) (h : Reached E st committed b x) : Stored E st x := by
  rcases Relation.ReflTransGen.cases_tail h.2 with rfl | ⟨y, -, hyx⟩
  · exact hb
  · exact hst.stored_of_resolved hyx.1

theorem exists_traversal (hst : OwnStore E st) {s : Feed D} {b : Block D} {rest : List (Block D)}
    (hb : Stored E st b) (hidle : s.commitor.work = .idle)
    (hchan : s.commitor.blocksChan = b :: rest) :
    ∃ s' new, Feed.Drains (DAGCommitor.run E st) s s' ∧ s'.commitor.work = .idle ∧
      s'.commitor.blocksChan = rest ∧ s'.log = s.log ++ new ∧
      (new.map (Block.hash E)).Nodup ∧
      (∀ x, x ∈ new ↔ Reached E st s.commitor.committedBlcoks b x) ∧
      ∀ d, d ∈ s'.commitor.committedBlcoks ↔
        d ∈ s.commitor.committedBlcoks ∨ ∃ x ∈ new, x.hash E = d := by
  have hU := hst.blocks
  obtain ⟨seen, hnodup, hseen⟩ := Feed.exists_seen hU s.commitor.committedBlcoks
  obtain ⟨l, hl⟩ := hU.exists_worksOff seen [b] (by simpa using hb)
  obtain ⟨s', new, hd, hnew, hs'⟩ := Feed.drains_search hU hl
    ⟨{ s.commitor with blocksChan := rest, work := .bfs [b] }, s.calls, s.passed, s.log⟩ rfl
    (by simpa using hb) (fun x hx => by rw [hseen]; simp [hx])
  have hparts := hl.nodup hnodup
  rw [hnew, List.nodup_append] at hparts
  have hmem : ∀ x, x ∈ new ↔ Reached E st s.commitor.committedBlcoks b x := by
    intro x
    rw [reached_iff_beyond hU hseen hb]
    have hx := hl.mem_iff_beyond x
    rw [hnew, List.mem_append] at hx
    constructor
    · intro hxn
      rcases hx.1 (Or.inr hxn) with hxs | ⟨y, hy, hys, hyx⟩
      · exact absurd rfl (hparts.2.2 x hxs x hxn)
      · rw [List.mem_singleton.1 hy] at hys hyx
        exact ⟨hys, hyx⟩
    · rintro ⟨hbs, hbx⟩
      rcases hx.2 (Or.inr ⟨b, List.mem_singleton_self b, hbs, hbx⟩) with hxs | hxn
      · -- the last block of the path is not among those seen
        rcases Relation.ReflTransGen.cases_tail hbx with rfl | ⟨y, -, hyx⟩
        · exact absurd hxs hbs
        · exact absurd hxs hyx.2
      · exact hxn
  have hstored : ∀ x ∈ new, Stored E st x := fun x hx => hst.stored_of_reached hb ((hmem x).1 hx)
  refine ⟨s', new, Relation.ReflTransGen.head (Feed.runs_take hidle hchan) hd, hs'.work, hs'.chan,
    hs'.log, ?_, hmem, hs'.committed⟩
  exact List.Nodup.map_on (fun x hx y hy h => OwnStore.hash_inj (hstored x hx) (hstored y hy) h)
    hparts.2.1

/-! ## A store that grows -/

/-- The DAG commitor with the blocks that were written to the store it reads, oldest first. -/
structure Ledger (D : Type) where
  written : List (Block D)
  feed : Feed D

namespace Ledger

def new : Ledger D := ⟨[], Feed.new⟩

/-- The store, which is empty at first. -/
def store (E : Env D) (l : Ledger D) : Store D := l.written.foldl (storeBlock E) fun _ => none

/-- A block is written to the store, `Commit` is called, or `run` takes a step. -/
inductive Step (E : Env D) : Ledger D → Ledger D → Prop
  | write {l : Ledger D} (b : Block D) : Step E l { l with written := l.written ++ [b] }
  | commit {l : Ledger D} {f : Feed D} : Feed.Commits l.feed f → Step E l { l with feed := f }
  | run {l : Ledger D} {f : Feed D} : Feed.Runs (DAGCommitor.run E (l.store E)) l.feed f →
      Step E l { l with feed := f }

abbrev Steps (E : Env D) : Ledger D → Ledger D → Prop := Relation.ReflTransGen (Step E)

/-- The blocks that were written or handed to `Commit`. -/
def blocks (l : Ledger D) : List (Block D) := l.written ++ l.feed.calls

/-- The step emits no block of `H` while one of its references is missing. -/
def Timely (E : Env D) (H : Block D → Prop) (l l' : Ledger D) : Prop :=
  ∀ x, H x → l'.feed.log = l.feed.log ++ [x] →
    ∀ qc ∈ x.references, (getBlock (l.store E) qc.parentBlockHash).isSome

variable {l l' : Ledger D}

theorem store_write (b : Block D) :
    ({ l with written := l.written ++ [b] } : Ledger D).store E = storeBlock E (l.store E) b := by
  simp [store]

theorem mem_written {d : D} {b : Block D} (h : getBlock (l.store E) d = some b) :
    b ∈ l.written ∧ b.hash E = d := by
  obtain ⟨written, feed⟩ := l
  induction written using List.reverseRecOn with
  | nil => cases h
  | append_singleton bs a ih =>
    have hs : (⟨bs ++ [a], feed⟩ : Ledger D).store E =
        storeBlock E ((⟨bs, feed⟩ : Ledger D).store E) a := store_write (l := ⟨bs, feed⟩) a
    rw [hs] at h
    rcases getBlock_storeBlock h with ⟨rfl, rfl⟩ | h
    · exact ⟨List.mem_append_right _ (List.mem_singleton_self _), rfl⟩
    · exact ⟨List.mem_append_left _ (ih h).1, (ih h).2⟩

theorem ownStore : OwnStore E (l.store E) where
  own _ _ h := (mem_written h).2
  finite := by
    refine (l.written.map (Block.hash E)).finite_toSet.subset fun d hd => ?_
    obtain ⟨b, hb⟩ := Option.isSome_iff_exists.1 hd
    exact List.mem_map.2 ⟨b, mem_written hb⟩

theorem Step.blocks_subset (h : Step E l l') : l.blocks ⊆ l'.blocks := by
  intro x hx
  rcases List.mem_append.1 hx with hx | hx
  · cases h with
    | write b => exact List.mem_append_left _ (List.mem_append_left _ hx)
    | commit _ => exact List.mem_append_left _ hx
    | run _ => exact List.mem_append_left _ hx
  · cases h with
    | write b => exact List.mem_append_right _ hx
    | commit hc =>
      have hstep : Feed.Step (DAGCommitor.run E (l.store E)) _ _ := Or.inl hc
      exact List.mem_append_right _ (hstep.calls_subset x hx)
    | run hr => exact List.mem_append_right _ (Feed.Step.calls_subset (Or.inr hr) x hx)

theorem Steps.blocks_subset (h : Steps E l l') : l.blocks ⊆ l'.blocks := by
  induction h with
  | refl => exact List.Subset.refl _
  | tail _ hstep ih => exact List.Subset.trans ih hstep.blocks_subset

theorem Step.passed_subset (h : Step E l l') : l.feed.passed ⊆ l'.feed.passed := by
  cases h with
  | write b => exact List.Subset.refl _
  | commit hc =>
    cases hc with
    | call _ =>
      dsimp only
      split
      · exact List.Subset.refl _
      · exact List.subset_append_left _ _
  | run hr =>
    cases hr with
    | step _ => exact List.Subset.refl _

theorem Steps.passed_subset (h : Steps E l l') : l.feed.passed ⊆ l'.feed.passed := by
  induction h with
  | refl => exact List.Subset.refl _
  | tail _ hstep ih => exact List.Subset.trans ih hstep.passed_subset

/-- The hash tells the blocks apart that were written or handed to `Commit`. -/
def Distinct (E : Env D) (l : Ledger D) : Prop :=
  ∀ a ∈ l.blocks, ∀ b ∈ l.blocks, a.hash E = b.hash E → a = b

theorem Distinct.mono (h : Distinct E l') (hsub : l.blocks ⊆ l'.blocks) : Distinct E l :=
  fun a ha b hb => h a (hsub ha) b (hsub hb)

theorem blocks_of_getBlock {d : D} {b : Block D} (h : getBlock (l.store E) d = some b) :
    b ∈ l.blocks :=
  List.mem_append_left _ (mem_written h).1

/-- A block that is in the store stays there: what is written over it is the same block. -/
theorem Step.getBlock_mono (h : Step E l l') (hd : Distinct E l') {d : D} {c : Block D}
    (hc : getBlock (l.store E) d = some c) : getBlock (l'.store E) d = some c := by
  have hcl := h.blocks_subset (blocks_of_getBlock hc)
  cases h with
  | write b =>
    rw [store_write]
    unfold getBlock storeBlock
    by_cases hb : d = b.hash E
    · have hbc : b = c := by
        refine hd b ?_ c hcl (hb ▸ (mem_written hc).2.symm)
        exact List.mem_append_left _ (List.mem_append_right _ (List.mem_singleton_self b))
      rw [hb, Function.update_self, hbc]
    · rw [Function.update_of_ne hb]
      exact hc
  | commit _ => exact hc
  | run _ => exact hc

theorem Steps.getBlock_mono (h : Steps E l l') (hd : Distinct E l') {d : D} {c : Block D}
    (hc : getBlock (l.store E) d = some c) : getBlock (l'.store E) d = some c := by
  induction h with
  | refl => exact hc
  | tail _ hstep ih => exact hstep.getBlock_mono hd (ih (hd.mono hstep.blocks_subset))

/-- **The invariant of the ledger.** What the emitted blocks of `H` refer to is in the store, and is
emitted or on the queue. -/
structure Inv (E : Env D) (H : Block D → Prop) (l : Ledger D) : Prop where
  committed : ∀ d, d ∈ l.feed.commitor.committedBlcoks ↔ ∃ b ∈ l.feed.log, b.hash E = d
  log_mem : ∀ b ∈ l.feed.log, b ∈ l.blocks
  pending_mem : ∀ b ∈ l.feed.commitor.work.pending, b ∈ l.blocks
  chan_mem : ∀ b ∈ l.feed.commitor.blocksChan, b ∈ l.blocks
  work : l.feed.commitor.work = .idle ∨ ∃ queue, l.feed.commitor.work = .bfs queue
  passed : ∀ b ∈ l.feed.passed,
    b ∈ l.feed.log ∨ b ∈ l.feed.commitor.work.pending ∨ b ∈ l.feed.commitor.blocksChan
  met : ∀ y ∈ l.feed.log, H y → ∀ qc ∈ y.references,
    ∃ c, getBlock (l.store E) qc.parentBlockHash = some c ∧
      (c ∈ l.feed.log ∨ c ∈ l.feed.commitor.work.pending)

variable {H : Block D → Prop}

theorem Inv.new : Inv E H (Ledger.new : Ledger D) where
  committed := by simp [Ledger.new, Feed.new, Commitor.new]
  log_mem := by simp [Ledger.new, Feed.new]
  pending_mem := by simp [Ledger.new, Feed.new, Commitor.new, Work.pending]
  chan_mem := by simp [Ledger.new, Feed.new, Commitor.new]
  work := Or.inl rfl
  passed := by simp [Ledger.new, Feed.new]
  met := by simp [Ledger.new, Feed.new]

theorem Inv.write (h : Inv E H l) (b : Block D)
    (hd : Distinct E { l with written := l.written ++ [b] }) :
    Inv E H { l with written := l.written ++ [b] } := by
  have hstep : Step E l { l with written := l.written ++ [b] } := Step.write b
  have hsub := hstep.blocks_subset
  refine ⟨h.committed, fun x hx => hsub (h.log_mem x hx), fun x hx => hsub (h.pending_mem x hx),
    fun x hx => hsub (h.chan_mem x hx), h.work, h.passed, fun y hy hH qc hqc => ?_⟩
  obtain ⟨c, hc, hm⟩ := h.met y hy hH qc hqc
  exact ⟨c, hstep.getBlock_mono hd hc, hm⟩

theorem Inv.commit (h : Inv E H l) {f : Feed D} (hf : Feed.Commits l.feed f) :
    Inv E H { l with feed := f } := by
  have hsub : l.blocks ⊆ ({ l with feed := f } : Ledger D).blocks :=
    (Step.commit (E := E) hf).blocks_subset
  cases hf with
  | @call b c hc =>
    have hb : b ∈ ({ l with feed := ⟨c, l.feed.calls ++ [b], if l.feed.commitor.filtered b then
        l.feed.passed else l.feed.passed ++ [b], l.feed.log⟩ } : Ledger D).blocks :=
      List.mem_append_right _ (List.mem_append_right _ (List.mem_singleton_self b))
    unfold Commitor.commit at hc
    by_cases hfil : l.feed.commitor.filtered b
    · rw [if_pos hfil] at hc
      cases hc
      refine ⟨h.committed, fun x hx => hsub (h.log_mem x hx), fun x hx => hsub (h.pending_mem x hx),
        fun x hx => hsub (h.chan_mem x hx), h.work, ?_, h.met⟩
      dsimp only
      rw [if_pos hfil]
      exact h.passed
    · rw [if_neg hfil] at hc
      split at hc
      · cases hc
        refine ⟨h.committed, fun x hx => hsub (h.log_mem x hx),
          fun x hx => hsub (h.pending_mem x hx), fun x hx => ?_, h.work, fun x hx => ?_, h.met⟩
        · rcases List.mem_append.1 hx with hx | hx
          · exact hsub (h.chan_mem x hx)
          · rw [List.mem_singleton.1 hx]
            exact hb
        · dsimp only at hx ⊢
          rw [if_neg hfil] at hx
          rcases List.mem_append.1 hx with hx | hx
          · exact (h.passed x hx).imp_right (Or.imp_right (List.mem_append_left _))
          · exact Or.inr (Or.inr (List.mem_append_right _ hx))
      · cases hc

theorem Inv.of_kept (h : Inv E H l) {c : Commitor D} {bs : List (Block D)}
    (hcom : ∀ d, d ∈ c.committedBlcoks ↔
      d ∈ l.feed.commitor.committedBlcoks ∨ ∃ b ∈ bs, b.hash E = d)
    (hbs : ∀ b ∈ bs, b ∈ l.blocks) (hpending : ∀ b ∈ c.work.pending, b ∈ l.blocks)
    (hchan : c.blocksChan ⊆ l.feed.commitor.blocksChan)
    (hwork : c.work = .idle ∨ ∃ queue, c.work = .bfs queue)
    (hkept : ∀ b, b ∈ l.feed.log ∨ b ∈ l.feed.commitor.work.pending →
      b ∈ l.feed.log ++ bs ∨ b ∈ c.work.pending)
    (htaken : ∀ b ∈ l.feed.commitor.blocksChan, b ∈ c.work.pending ∨ b ∈ c.blocksChan)
    (hmet : ∀ y ∈ bs, H y → ∀ qc ∈ y.references,
      ∃ x, getBlock (l.store E) qc.parentBlockHash = some x ∧ x ∈ c.work.pending) :
    Inv E H { l with feed := ⟨c, l.feed.calls, l.feed.passed, l.feed.log ++ bs⟩ } where
  committed d := by
    rw [hcom, h.committed]
    simp only [List.mem_append, or_and_right, exists_or]
  log_mem b hb := by
    rcases List.mem_append.1 hb with hb | hb
    · exact h.log_mem b hb
    · exact hbs b hb
  pending_mem := hpending
  chan_mem b hb := h.chan_mem b (hchan hb)
  work := hwork
  passed b hb := by
    rcases h.passed b hb with hb | hb | hb
    · exact (hkept b (Or.inl hb)).imp_right Or.inl
    · exact (hkept b (Or.inr hb)).imp_right Or.inl
    · exact Or.inr (htaken b hb)
  met y hy hH qc hqc := by
    rcases List.mem_append.1 hy with hy | hy
    · obtain ⟨x, hx, hm⟩ := h.met y hy hH qc hqc
      exact ⟨x, hx, hkept x hm⟩
    · obtain ⟨x, hx, hm⟩ := hmet y hy hH qc hqc
      exact ⟨x, hx, Or.inr hm⟩

theorem Inv.run (h : Inv E H l) (hd : Distinct E l) {f : Feed D}
    (hf : Feed.Runs (DAGCommitor.run E (l.store E)) l.feed f)
    (ht : Timely E H l { l with feed := f }) : Inv E H { l with feed := f } := by
  cases hf with
  | @step c bs hr =>
    have hpend := h.pending_mem
    cases DAGCommitor.step_of_run hr with
    | @take b rest hw hch =>
      refine h.of_kept (by simp) (by simp) ?_ ?_ (Or.inr ⟨[b], rfl⟩) ?_ ?_ (by simp)
      · intro x hx
        rw [List.mem_singleton.1 hx]
        exact h.chan_mem b (hch ▸ List.mem_cons_self)
      · rw [hch]
        exact List.subset_cons_self b rest
      · rw [hw, List.append_nil]
        exact fun x hx => Or.inl (hx.resolve_right List.not_mem_nil)
      · rw [hch]
        intro x hx
        rcases List.mem_cons.1 hx with rfl | hx
        · exact Or.inl (List.mem_singleton_self x)
        · exact Or.inr hx
    | finish hw =>
      refine h.of_kept (by simp) (by simp) (by simp [Work.pending]) (List.Subset.refl _)
        (Or.inl rfl) ?_ (fun x hx => Or.inr hx) (by simp)
      rw [hw, List.append_nil]
      exact fun x hx => Or.inl (hx.resolve_right List.not_mem_nil)
    | @skip b rest hw hcom =>
      rw [hw] at hpend
      -- the hash is committed, so that the block itself has been emitted
      have hbl : b ∈ l.feed.log := by
        obtain ⟨a, ha, hab⟩ := (h.committed _).1 hcom
        exact hd a (h.log_mem a ha) b (hpend b List.mem_cons_self) hab ▸ ha
      refine h.of_kept (by simp) (by simp) (fun x hx => hpend x (List.mem_cons_of_mem _ hx))
        (List.Subset.refl _) (Or.inr ⟨rest, rfl⟩) ?_ (fun x hx => Or.inr hx) (by simp)
      rw [hw, List.append_nil]
      rintro x (hx | hx)
      · exact Or.inl hx
      · rcases List.mem_cons.1 hx with rfl | hx
        · exact Or.inl hbl
        · exact Or.inr hx
    | @emit b rest hw hcom =>
      rw [hw] at hpend
      refine h.of_kept (fun d => ?_) ?_ ?_ (List.Subset.refl _) (Or.inr ⟨_, rfl⟩) ?_
        (fun x hx => Or.inr hx) ?_
      · rw [List.mem_cons, or_comm, eq_comm]
        simp
      · intro x hx
        rw [List.mem_singleton.1 hx]
        exact hpend b List.mem_cons_self
      · intro x hx
        rcases List.mem_append.1 hx with hx | hx
        · exact hpend x (List.mem_cons_of_mem _ hx)
        · obtain ⟨qc, -, hqc⟩ := List.mem_filterMap.1 hx
          exact blocks_of_getBlock hqc
      · rw [hw]
        rintro x (hx | hx)
        · exact Or.inl (List.mem_append_left _ hx)
        · rcases List.mem_cons.1 hx with rfl | hx
          · exact Or.inl (List.mem_append_right _ (List.mem_singleton_self _))
          · exact Or.inr (List.mem_append_left _ hx)
      · intro y hy hH qc hqc
        obtain rfl := List.mem_singleton.1 hy
        obtain ⟨x, hx⟩ := Option.isSome_iff_exists.1 (ht y hH rfl qc hqc)
        exact ⟨x, hx, List.mem_append_right _ (List.mem_filterMap.2 ⟨qc, hqc, hx⟩)⟩

theorem Inv.step (h : Inv E H l) (hstep : Step E l l') (hd : Distinct E l')
    (ht : Timely E H l l') : Inv E H l' := by
  cases hstep with
  | write b => exact h.write b hd
  | commit hc => exact h.commit hc
  | run hr => exact h.run (hd.mono (Step.run hr).blocks_subset) hr ht

/-- What is timely up to a state stays timely when the references of `H` are there. -/
theorem Inv.steps (h : Inv E H l) (hsteps : Steps E l l') (hd : Distinct E l')
    (hwhole : ∀ x, H x → ∀ qc ∈ x.references, (getBlock (l.store E) qc.parentBlockHash).isSome) :
    Inv E H l' := by
  induction hsteps with
  | refl => exact h
  | @tail l₁ l₂ hsteps hstep ih =>
    have hd₁ := hd.mono hstep.blocks_subset
    refine (ih hd₁).step hstep hd fun x hx _ qc hqc => ?_
    obtain ⟨c, hc⟩ := Option.isSome_iff_exists.1 (hwhole x hx qc hqc)
    rw [Steps.getBlock_mono hsteps hd₁ hc]
    rfl

/-- A run in which every step is timely. -/
abbrev TimelySteps (E : Env D) (H : Block D → Prop) : Ledger D → Ledger D → Prop :=
  Relation.ReflTransGen fun l l' => Step E l l' ∧ Timely E H l l'

theorem TimelySteps.steps (h : TimelySteps E H l l') : Steps E l l' :=
  Relation.ReflTransGen.mono (fun _ _ hs => hs.1) _ _ h

theorem TimelySteps.inv (h : TimelySteps E H Ledger.new l) (hd : Distinct E l) : Inv E H l := by
  induction h with
  | refl => exact Inv.new
  | tail _ hstep ih => exact (ih (hd.mono hstep.1.blocks_subset)).step hstep.1 hd hstep.2

/-! ### `run` comes to rest -/

/-- `run` waits for a block. -/
def Quiet (E : Env D) (l : Ledger D) : Prop := Feed.Quiet (DAGCommitor.run E (l.store E)) l.feed

theorem Inv.quiet_iff (h : Inv E H l) :
    Quiet E l ↔ l.feed.commitor.work = .idle ∧ l.feed.commitor.blocksChan = [] :=
  Feed.quiet_iff_of_work h.work

theorem blocks_universe (hd : Distinct E l) : Universe E (l.store E) (· ∈ l.blocks) where
  hash_inj a b ha hb := hd a ha b hb
  resolved b _ c hc := by
    obtain ⟨qc, -, hqc⟩ := List.mem_filterMap.1 hc
    exact blocks_of_getBlock hqc
  finite := l.blocks.finite_toSet

theorem steps_of_drains {f : Feed D}
    (h : Feed.Drains (DAGCommitor.run E (l.store E)) l.feed f) : Steps E l { l with feed := f } := by
  induction h with
  | refl => exact Relation.ReflTransGen.refl
  | @tail f f' _ hr ih => exact ih.tail (Step.run (l := { l with feed := f }) hr)

theorem Inv.exists_quiet (h : Inv E H l) (hd : Distinct E l) :
    ∃ f, Feed.Drains (DAGCommitor.run E (l.store E)) l.feed f ∧
      Feed.Quiet (DAGCommitor.run E (l.store E)) f :=
  Feed.exists_quiet_of_universe (blocks_universe hd) h.work h.pending_mem h.chan_mem

end Ledger


/-! ## A block that comes late -/

namespace LateBlock

/-- A committee of one. -/
def env : Env ℕ := Env.plain 1 fun _ => 0

def late : Block ℕ := ⟨0, 0, HEIGHT_1, ⟨-1, []⟩, none, []⟩

def early : Block ℕ := ⟨0, 1, HEIGHT_1, ⟨-1, []⟩, none, [⟨0, HEIGHT_1, 0, late.hash env, []⟩]⟩

def next : Block ℕ := ⟨0, 2, HEIGHT_1, ⟨-1, []⟩, none, [⟨1, HEIGHT_1, 0, early.hash env, []⟩]⟩

/-- `early` has been emitted before `late` was there. -/
def before : Ledger ℕ :=
  ⟨[early, late, next], ⟨1, HEIGHT_1, [early.hash env], [], .idle⟩, [early], [early], [early]⟩

/-- `next` has been worked off. -/
def after : Ledger ℕ :=
  ⟨[early, late, next], ⟨2, HEIGHT_1, [next.hash env, early.hash env], [], .idle⟩, [early, next],
    [early, next], [early, next]⟩

theorem steps_before : Ledger.Steps env Ledger.new before := by
  refine Relation.ReflTransGen.head (Ledger.Step.write early) ?_
  refine Relation.ReflTransGen.head (Ledger.Step.commit (Feed.Commits.call (b := early) rfl)) ?_
  refine Relation.ReflTransGen.head (Ledger.Step.run (Feed.Runs.step rfl)) ?_
  refine Relation.ReflTransGen.head (Ledger.Step.run (Feed.Runs.step rfl)) ?_
  refine Relation.ReflTransGen.head (Ledger.Step.run (Feed.Runs.step rfl)) ?_
  refine Relation.ReflTransGen.head (Ledger.Step.write late) ?_
  exact Relation.ReflTransGen.single (Ledger.Step.write next)

theorem steps_after : Ledger.Steps env
    ⟨before.written, ⟨2, HEIGHT_1, [early.hash env], [next], .idle⟩, [early, next], [early, next],
      [early]⟩ after := by
  refine Relation.ReflTransGen.head (Ledger.Step.run (Feed.Runs.step rfl)) ?_
  refine Relation.ReflTransGen.head (Ledger.Step.run (Feed.Runs.step rfl)) ?_
  refine Relation.ReflTransGen.head (Ledger.Step.run (Feed.Runs.step rfl)) ?_
  exact Relation.ReflTransGen.single (Ledger.Step.run (Feed.Runs.step rfl))

theorem distinct : Ledger.Distinct env after := by
  unfold Ledger.Distinct
  decide +kernel

theorem resolved_before : resolved (before.store env) next = [early] ∧
    resolved (before.store env) early = [late] ∧ resolved (before.store env) late = [] := by
  decide +kernel

theorem below_cases {x : Block ℕ} (h : Below (resolved (before.store env)) next x) :
    x = next ∨ x = early ∨ x = late := by
  obtain ⟨hn, he, hl⟩ := resolved_before
  induction h with
  | refl => exact Or.inl rfl
  | tail _ hstep ih =>
    rcases ih with rfl | rfl | rfl
    · rw [hn] at hstep
      exact Or.inr (Or.inl (List.mem_singleton.1 hstep))
    · rw [he] at hstep
      exact Or.inr (Or.inr (List.mem_singleton.1 hstep))
    · rw [hl] at hstep
      exact absurd hstep List.not_mem_nil

theorem stored_next : Stored env (before.store env) next := by
  show getBlock _ _ = _
  decide +kernel

theorem store_whole (d : ℕ) (x : Block ℕ) (h : getBlock (before.store env) d = some x) :
    ∀ qc ∈ x.references, (getBlock (before.store env) qc.parentBlockHash).isSome := by
  have hall : ∀ x ∈ before.written, ∀ qc ∈ x.references,
      (getBlock (before.store env) qc.parentBlockHash).isSome := by
    decide +kernel
  exact hall x (Ledger.mem_written h).1

theorem closed_late : ClosedUnder (before.store env) [late.hash env] := by
  intro d hd b hb qc hqc
  have hall : ∀ b ∈ before.written, b.hash env = late.hash env → b.references = [] := by
    decide +kernel
  obtain ⟨hmem, hhash⟩ := Ledger.mem_written hb
  rw [hall b hmem (hhash.trans (List.mem_singleton.1 hd))] at hqc
  exact absurd hqc List.not_mem_nil

theorem below_early : Below (resolved (before.store env)) next early := by
  refine Relation.ReflTransGen.single ?_
  rw [resolved_before.1]
  exact List.mem_singleton_self early

theorem below_late : Below (resolved (before.store env)) next late := by
  refine below_early.tail ?_
  rw [resolved_before.2.1]
  exact List.mem_singleton_self late

theorem whole : ∀ x, Below (resolved (before.store env)) next x → ∀ qc ∈ x.references,
    (getBlock (before.store env) qc.parentBlockHash).isSome := by
  intro x hx
  rcases below_cases hx with rfl | rfl | rfl
  · decide +kernel
  · decide +kernel
  · decide +kernel

/-- `late` has been emitted, and the two other blocks are there. -/
def timely : Ledger ℕ :=
  ⟨[early, late, next], ⟨0, HEIGHT_1, [late.hash env], [], .idle⟩, [late], [late], [late]⟩

/-- After that `next` has been handed to `Commit`. -/
def handed : Feed ℕ :=
  ⟨⟨2, HEIGHT_1, [late.hash env], [next], .idle⟩, [late, next], [late, next], [late]⟩

theorem timelySteps (H : Block ℕ → Prop) : Ledger.TimelySteps env H Ledger.new timely := by
  -- only `late` is emitted, and it refers to nothing
  have hstep {l l' : Ledger ℕ} (hs : Ledger.Step env l l') (hlog : l'.feed.log ⊆ [late]) :
      Ledger.Step env l l' ∧ Ledger.Timely env H l l' := by
    refine ⟨hs, fun x _ hx qc hqc => ?_⟩
    have hmem : x ∈ l'.feed.log := by simp [hx]
    rw [List.mem_singleton.1 (hlog hmem)] at hqc
    exact absurd hqc List.not_mem_nil
  refine Relation.ReflTransGen.head (hstep (Ledger.Step.write early) (by decide)) ?_
  refine Relation.ReflTransGen.head (hstep (Ledger.Step.write late) (by decide)) ?_
  refine Relation.ReflTransGen.head
    (hstep (Ledger.Step.commit (Feed.Commits.call (b := late) rfl)) (by decide)) ?_
  refine Relation.ReflTransGen.head (hstep (Ledger.Step.run (Feed.Runs.step rfl)) (by decide)) ?_
  refine Relation.ReflTransGen.head (hstep (Ledger.Step.run (Feed.Runs.step rfl)) (by decide)) ?_
  refine Relation.ReflTransGen.head (hstep (Ledger.Step.run (Feed.Runs.step rfl)) (by decide)) ?_
  exact Relation.ReflTransGen.single (hstep (Ledger.Step.write next) (by decide))

end LateBlock

/-! ## What is emitted -/

/-- **The traversal of the DAG commitor ends and is exact.** The store is finite and holds its blocks
under their hashes, and `b` is one of them; anything may be committed, references may be missing and
may lead in cycles. `run` takes `b` off the channel and comes back, having emitted, each once, the
blocks that are reached from `b` past uncommitted blocks; their hashes and nothing else have become
committed. If no reference is missing and the committed blocks are closed, then they stay so and all
of the history of `b` that was not committed has been emitted. -/
theorem dag_traversal_exact (hst : OwnStore E st) {s : Feed D} {b : Block D} {rest : List (Block D)}
    (hb : Stored E st b) (hidle : s.commitor.work = .idle)
    (hchan : s.commitor.blocksChan = b :: rest) :
    ∃ s' new, Feed.Drains (DAGCommitor.run E st) s s' ∧ s'.commitor.work = .idle ∧
      s'.commitor.blocksChan = rest ∧ s'.log = s.log ++ new ∧
      (new.map (Block.hash E)).Nodup ∧
      (∀ x, x ∈ new ↔ Reached E st s.commitor.committedBlcoks b x) ∧
      (∀ d, d ∈ s'.commitor.committedBlcoks ↔
        d ∈ s.commitor.committedBlcoks ∨ ∃ x ∈ new, x.hash E = d) ∧
      ((∀ d x, getBlock st d = some x → ∀ qc ∈ x.references,
          (getBlock st qc.parentBlockHash).isSome) →
        ClosedUnder st s.commitor.committedBlcoks →
        ClosedUnder st s'.commitor.committedBlcoks ∧
          ∀ x, Below (resolved st) b x → x.hash E ∉ s.commitor.committedBlcoks → x ∈ new) := by
  obtain ⟨s', new, hd, hwork, hch, hlog, hnodup, hmem, hcom⟩ := exists_traversal hst hb hidle hchan
  refine ⟨s', new, hd, hwork, hch, hlog, hnodup, hmem, hcom, fun hres hclosed => ⟨?_, ?_⟩⟩
  · intro d hd y hy qc hqc
    rw [hcom] at hd ⊢
    rcases hd with hd | ⟨x, hx, rfl⟩
    · exact Or.inl (hclosed d hd y hy qc hqc)
    · -- the block was emitted, so what it refers to is committed or was reached next
      obtain ⟨z, hz⟩ := Option.isSome_iff_exists.1 (hres _ y hy qc hqc)
      by_cases hzc : qc.parentBlockHash ∈ s.commitor.committedBlcoks
      · exact Or.inl hzc
      · have hxb := (hmem x).1 hx
        have hxy : x = y := OwnStore.hash_inj (hst.stored_of_reached hb hxb) (hst.stored hy)
          (hst.own _ _ hy).symm
        subst hxy
        refine Or.inr ⟨z, (hmem z).2 ⟨hxb.1, hxb.2.tail ⟨?_, ?_⟩⟩, hst.own _ _ hz⟩
        · exact List.mem_filterMap.2 ⟨qc, hqc, hz⟩
        · rw [hst.own _ _ hz]
          exact hzc
  · intro x hx hxc
    exact (hmem x).2 (reached_of_below hst hclosed hb hx hxc)

/-- `next` is worked off where `late` is committed already: `early` is reached, and `late` is not emitted
again. -/
theorem dag_traversal_exact_three :
    ∃ s' new, Feed.Drains (DAGCommitor.run LateBlock.env (LateBlock.timely.store LateBlock.env))
        LateBlock.handed s' ∧
      s'.commitor.work = .idle ∧ s'.log = LateBlock.late :: new ∧
      (∀ x, x ∈ new ↔ x = LateBlock.next ∨ x = LateBlock.early) ∧
      ClosedUnder (LateBlock.timely.store LateBlock.env) s'.commitor.committedBlcoks := by
  obtain ⟨s', new, hd, hwork, -, hlog, -, hmem, -, hclosed⟩ := dag_traversal_exact
    (Ledger.ownStore (E := LateBlock.env) (l := LateBlock.timely)) (s := LateBlock.handed)
    LateBlock.stored_next rfl rfl
  obtain ⟨hclosed, hall⟩ := hclosed LateBlock.store_whole LateBlock.closed_late
  refine ⟨s', new, hd, hwork, hlog, fun x => ⟨fun hx => ?_, ?_⟩, hclosed⟩
  · have hreach := (hmem x).1 hx
    rcases LateBlock.below_cases hreach.below with rfl | rfl | rfl
    · exact Or.inl rfl
    · exact Or.inr rfl
    · exact absurd (List.mem_singleton_self _) hreach.not_committed
  · rintro (rfl | rfl)
    · exact hall _ Relation.ReflTransGen.refl (by decide +kernel)
    · exact hall _ LateBlock.below_early (by decide +kernel)

/-- **When a late block is not lost.** Blocks are written to the store, `Commit` is called and `run`
takes its steps in any order, and the hash tells the blocks apart. `Commit` is called with `b` when the
whole causal history of `b` is in the store, and lets it through. If no block of that history has been
emitted before while one of its references was missing, then all of the history has been emitted
whenever `run` is at rest again, and it comes to rest. -/
theorem late_blocks_emitted {b : Block D} {l₀ l₁ : Ledger D} {c : Commitor D}
    (h₀ : Ledger.TimelySteps E (Below (resolved (l₀.store E)) b) Ledger.new l₀)
    (hwhole : ∀ x, Below (resolved (l₀.store E)) b x → ∀ qc ∈ x.references,
      (getBlock (l₀.store E) qc.parentBlockHash).isSome)
    (hpass : ¬ l₀.feed.commitor.filtered b) (hcommit : l₀.feed.commitor.commit b = some c)
    (h₁ : Ledger.Steps E
      ⟨l₀.written, c, l₀.feed.calls ++ [b], l₀.feed.passed ++ [b], l₀.feed.log⟩ l₁)
    (hd : Ledger.Distinct E l₁) :
    (l₁.Quiet E → ∀ x, Below (resolved (l₀.store E)) b x → x ∈ l₁.feed.log) ∧
      ∃ f, Feed.Drains (DAGCommitor.run E (l₁.store E)) l₁.feed f ∧
        Feed.Quiet (DAGCommitor.run E (l₁.store E)) f ∧
        ∀ x, Below (resolved (l₀.store E)) b x → x ∈ f.log := by
  have hcall : Feed.Commits l₀.feed
      ⟨c, l₀.feed.calls ++ [b], l₀.feed.passed ++ [b], l₀.feed.log⟩ := by
    have := Feed.Commits.call hcommit
    rwa [if_neg hpass] at this
  have hinv := (h₀.inv (hd.mono (List.Subset.trans (Ledger.Step.commit (E := E) hcall).blocks_subset
    (Ledger.Steps.blocks_subset h₁)))).commit hcall
  -- at rest, what `b` refers to has been emitted, and so on down
  have hrest : ∀ l, Ledger.Steps E
      ⟨l₀.written, c, l₀.feed.calls ++ [b], l₀.feed.passed ++ [b], l₀.feed.log⟩ l →
      Ledger.Distinct E l → l.Quiet E → ∀ x, Below (resolved (l₀.store E)) b x → x ∈ l.feed.log := by
    intro l hl hdl hq x hx
    have hi := hinv.steps hl hdl hwhole
    obtain ⟨hw, hch⟩ := hi.quiet_iff.1 hq
    have hb : b ∈ l.feed.passed :=
      Ledger.Steps.passed_subset hl (List.mem_append_right _ (List.mem_singleton_self b))
    induction hx with
    | refl => simpa [hw, hch, Work.pending] using hi.passed b hb
    | @tail y z hby hyz ih =>
      obtain ⟨qc, hqc, hz⟩ := List.mem_filterMap.1 hyz
      obtain ⟨z', hz', hm⟩ := hi.met y ih hby qc hqc
      have hzz : z' = z := Option.some.inj (hz'.symm.trans (Ledger.Steps.getBlock_mono hl hdl hz))
      rw [hw] at hm
      exact hzz ▸ hm.resolve_right List.not_mem_nil
  refine ⟨hrest l₁ h₁ hd, ?_⟩
  obtain ⟨f, hf, hq⟩ := (hinv.steps h₁ hd hwhole).exists_quiet hd
  have hdf : Ledger.Distinct E { l₁ with feed := f } := by
    unfold Ledger.Distinct Ledger.blocks
    rw [hf.same.1]
    exact hd
  exact ⟨f, hf, hq, hrest { l₁ with feed := f } (h₁.trans (Ledger.steps_of_drains hf)) hdf hq⟩

/-- `late` is committed and emitted, and all three blocks are written when `next` is handed to `Commit`. -/
theorem late_blocks_emitted_timely :
    ∃ f, Feed.Drains (DAGCommitor.run LateBlock.env (LateBlock.timely.store LateBlock.env))
        LateBlock.handed f ∧
      Feed.Quiet (DAGCommitor.run LateBlock.env (LateBlock.timely.store LateBlock.env)) f ∧
      LateBlock.next ∈ f.log ∧ LateBlock.early ∈ f.log ∧ LateBlock.late ∈ f.log := by
  have hdistinct : Ledger.Distinct LateBlock.env ⟨LateBlock.timely.written, LateBlock.handed⟩ := by
    unfold Ledger.Distinct
    decide +kernel
  have hsteps : Ledger.TimelySteps LateBlock.env
      (Below (resolved (LateBlock.timely.store LateBlock.env)) LateBlock.next) Ledger.new
      LateBlock.timely := LateBlock.timelySteps _
  obtain ⟨-, f, hf, hq, hx⟩ := late_blocks_emitted hsteps LateBlock.whole (by decide) rfl
    Relation.ReflTransGen.refl hdistinct
  exact ⟨f, hf, hq, hx _ Relation.ReflTransGen.refl, hx _ LateBlock.below_early, hx _ LateBlock.below_late⟩

/-- **A late block that is lost.** `early` is committed while the block `late` that it refers to is
missing. When `next`, which refers to `early`, is committed, the whole history of `next` is in the
store; `run` comes to rest without having emitted `late`. -/
theorem late_block_lost :
    ∃ (E : Env ℕ) (b late : Block ℕ) (l₀ l₁ : Ledger ℕ) (c : Commitor ℕ),
      Ledger.Steps E Ledger.new l₀ ∧ Stored E (l₀.store E) b ∧
      (∀ x, Below (resolved (l₀.store E)) b x → ∀ qc ∈ x.references,
        (getBlock (l₀.store E) qc.parentBlockHash).isSome) ∧
      ¬ l₀.feed.commitor.filtered b ∧ l₀.feed.commitor.commit b = some c ∧
      Ledger.Steps E
        ⟨l₀.written, c, l₀.feed.calls ++ [b], l₀.feed.passed ++ [b], l₀.feed.log⟩ l₁ ∧
      Ledger.Distinct E l₁ ∧ l₁.Quiet E ∧ Below (resolved (l₀.store E)) b late ∧
      late ∉ l₁.feed.log := by
  exact ⟨LateBlock.env, LateBlock.next, LateBlock.late, LateBlock.before, LateBlock.after, _,
    LateBlock.steps_before, LateBlock.stored_next, LateBlock.whole, by decide, rfl, LateBlock.steps_after,
    LateBlock.distinct, rfl, LateBlock.below_late, by decide⟩

end S2Pac
