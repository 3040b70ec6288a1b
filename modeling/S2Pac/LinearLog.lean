import Mathlib.Data.Set.Finite.Basic
import S2Pac.Lib.Forest
import S2Pac.Commitor

/-!
# The log of the linear commitor

`Commitor.run` walks from a block up to the first ancestor that is committed, and emits what it met on
the way back down. Here the walk is cut at every access to the store, `Commit` may be called between
any two steps, and the blocks it is called with may lie on any branches.

`LogInv` is the invariant of all such runs. It is stated over a `BlockTree`, the blocks that the store
may ever hold with their parent relation, so that it can be used where the store is fixed and where it
grows under the commitor's feet.

The loop goes on only when it finds the parent: it ends exactly if the way up from the block ends
(`linear_walk_ends_iff`), and hangs on a parent that is missing and on a cycle.
-/

set_option linter.unusedSectionVars false

namespace S2Pac

open Lib

variable {D : Type} [DecidableEq D] {E : Env D}

/-- A forest of blocks: no two of them have the same hash, the certificate that a block carries for
its parent names a block, and every block lies below a root. -/
structure BlockTree (E : Env D) where
  mem : Block D → Prop
  par : Block D → Option (Block D)
  hash_inj : ∀ a b, mem a → mem b → a.hash E = b.hash E → a = b
  par_none : ∀ b, mem b → b.qc = none → par b = none
  par_some : ∀ b, mem b → ∀ qc, b.qc = some qc →
    ∃ p, mem p ∧ p.hash E = qc.parentBlockHash ∧ par b = some p
  path : ∀ b, mem b → ∃ l, RootPath par l b

namespace BlockTree

variable (T : BlockTree E)

/-- A store that holds blocks of the forest, each under its hash. -/
def Admits (st : Store D) : Prop := ∀ d b, getBlock st d = some b → T.mem b ∧ b.hash E = d

variable {T}

theorem par_of_getBlock {st : Store D} (hst : T.Admits st) {b p : Block D} (hb : T.mem b)
    {qc : BlockQC D} (hqc : b.qc = some qc) (hp : getBlock st qc.parentBlockHash = some p) :
    T.par b = some p := by
  obtain ⟨p', hp', hh, hpar⟩ := T.par_some b hb qc hqc
  obtain ⟨hpm, hph⟩ := hst _ _ hp
  rw [hpar, T.hash_inj p p' hpm hp' (hph.trans hh.symm)]

end BlockTree

/-- What holds of the blocks in hand: they are the way up from a block that went through `Commit`, or
what is left of the way down, and in neither case emitted. -/
def WorkOk (T : BlockTree E) (passed log : List (Block D)) : Work D → Prop
  | .idle => True
  | .walk queue current => ∃ d ∈ passed, Climb T.par d queue current ∧ ∀ x ∈ queue, T.mem x ∧ x ∉ log
  | .emit rest => (log ++ rest).Nodup ∧ ParentFirst T.par (log ++ rest) ∧
      ∀ x ∈ rest, T.mem x ∧ ∃ d ∈ passed, Anc T.par x d
  | .bfs _ => False

/-- **The invariant of the commitor**, over the blocks `passed` that went through `Commit` and the
blocks `log` that were emitted. -/
structure LogInv (T : BlockTree E) (c : Commitor D) (passed log : List (Block D)) : Prop where
  committed : ∀ d, d ∈ c.committedBlcoks ↔ ∃ b ∈ log, b.hash E = d
  mem : ∀ b ∈ log, T.mem b
  nodup : log.Nodup
  first : ParentFirst T.par log
  source : ∀ b ∈ log, ∃ d ∈ passed, Anc T.par b d
  passed_mem : ∀ b ∈ passed, T.mem b
  chan : ∀ b ∈ c.blocksChan, b ∈ passed
  work : WorkOk T passed log c.work
  covered : ∀ b ∈ passed, b ∈ log ∨ b ∈ c.blocksChan ∨ b ∈ c.work.pending

namespace LogInv

variable {T : BlockTree E} {c : Commitor D} {passed log : List (Block D)}

theorem new (T : BlockTree E) : LogInv T Commitor.new [] [] where
  committed := by simp [Commitor.new]
  mem := by simp
  nodup := List.nodup_nil
  first := ParentFirst.nil
  source := by simp
  passed_mem := by simp
  chan := by simp [Commitor.new]
  work := trivial
  covered := by simp

theorem hash_mem_iff (h : LogInv T c passed log) {b : Block D} (hb : T.mem b) :
    b.hash E ∈ c.committedBlcoks ↔ b ∈ log := by
  rw [h.committed]
  constructor
  · rintro ⟨a, ha, hh⟩
    exact T.hash_inj a b (h.mem a ha) hb hh ▸ ha
  · intro hm
    exact ⟨b, hm, rfl⟩

theorem workOk_mono {w : Work D} (b : Block D) (h : WorkOk T passed log w) :
    WorkOk T (passed ++ [b]) log w := by
  cases w with
  | idle => trivial
  | walk queue current =>
    obtain ⟨d, hd, hc⟩ := h
    exact ⟨d, List.mem_append_left _ hd, hc⟩
  | emit rest =>
    refine ⟨h.1, h.2.1, fun x hx => ?_⟩
    obtain ⟨hm, d, hd, ha⟩ := h.2.2 x hx
    exact ⟨hm, d, List.mem_append_left _ hd, ha⟩
  | bfs queue => exact h

theorem commit (h : LogInv T c passed log) {b : Block D} (hb : T.mem b) {c' : Commitor D}
    (hc : c.commit b = some c') :
    LogInv T c' (if c.filtered b then passed else passed ++ [b]) log := by
  unfold Commitor.commit at hc
  by_cases hf : c.filtered b
  · rw [if_pos hf] at hc ⊢
    cases hc
    exact h
  · rw [if_neg hf] at hc ⊢
    split at hc
    · cases hc
      refine ⟨h.committed, h.mem, h.nodup, h.first, fun x hx => ?_, fun x hx => ?_, fun x hx => ?_,
        workOk_mono b h.work, fun x hx => ?_⟩
      · obtain ⟨d, hd, ha⟩ := h.source x hx
        exact ⟨d, List.mem_append_left _ hd, ha⟩
      · rcases List.mem_append.1 hx with hx | hx
        · exact h.passed_mem x hx
        · rw [List.mem_singleton.1 hx]; exact hb
      · rcases List.mem_append.1 hx with hx | hx
        · exact List.mem_append_left _ (h.chan x hx)
        · exact List.mem_append_right _ hx
      · rcases List.mem_append.1 hx with hx | hx
        · rcases h.covered x hx with hx | hx | hx
          · exact Or.inl hx
          · exact Or.inr (Or.inl (List.mem_append_left _ hx))
          · exact Or.inr (Or.inr hx)
        · exact Or.inr (Or.inl (List.mem_append_right _ hx))
    · cases hc

/-! ## The steps of `run` -/

theorem covered_cons (h : LogInv T c passed log) (hw : c.work = .idle) {b : Block D}
    {rest : List (Block D)} (hch : c.blocksChan = b :: rest) {x : Block D} (hx : x ∈ passed) :
    x ∈ log ∨ x = b ∨ x ∈ rest := by
  rcases h.covered x hx with hx | hx | hx
  · exact Or.inl hx
  · rw [hch] at hx
    exact Or.inr (List.mem_cons.1 hx)
  · rw [hw] at hx
    simp [Work.pending] at hx

theorem chan_tail (h : LogInv T c passed log) {b : Block D} {rest : List (Block D)}
    (hch : c.blocksChan = b :: rest) : ∀ x ∈ rest, x ∈ passed :=
  fun x hx => h.chan x (by rw [hch]; exact List.mem_cons_of_mem _ hx)

theorem drop (h : LogInv T c passed log) (hw : c.work = .idle) {b : Block D} {rest : List (Block D)}
    (hch : c.blocksChan = b :: rest) (hcom : b.hash E ∈ c.committedBlcoks) :
    LogInv T { c with blocksChan := rest } passed log := by
  have hbm : T.mem b := h.passed_mem b (h.chan b (by rw [hch]; exact List.mem_cons_self))
  refine ⟨h.committed, h.mem, h.nodup, h.first, h.source, h.passed_mem, h.chan_tail hch, h.work,
    fun x hx => ?_⟩
  rcases h.covered_cons hw hch hx with hx | rfl | hx
  · exact Or.inl hx
  · exact Or.inl ((h.hash_mem_iff hbm).1 hcom)
  · exact Or.inr (Or.inl hx)

theorem take (h : LogInv T c passed log) (hw : c.work = .idle) {b : Block D} {rest : List (Block D)}
    (hch : c.blocksChan = b :: rest) (hcom : b.hash E ∉ c.committedBlcoks) :
    LogInv T { c with blocksChan := rest, work := .walk [b] b } passed log := by
  have hbp : b ∈ passed := h.chan b (by rw [hch]; exact List.mem_cons_self)
  have hbm : T.mem b := h.passed_mem b hbp
  refine ⟨h.committed, h.mem, h.nodup, h.first, h.source, h.passed_mem, h.chan_tail hch,
    ⟨b, hbp, Climb.start, fun x hx => ?_⟩, fun x hx => ?_⟩
  · rw [List.mem_singleton.1 hx]
    exact ⟨hbm, fun hl => hcom ((h.hash_mem_iff hbm).2 hl)⟩
  · rcases h.covered_cons hw hch hx with hx | rfl | hx
    · exact Or.inl hx
    · exact Or.inr (Or.inr (List.mem_singleton_self _))
    · exact Or.inr (Or.inl hx)

theorem turn (h : LogInv T c passed log) {queue : List (Block D)} {current : Block D}
    (hw : c.work = .walk queue current) (hp : ∀ p, T.par current = some p → p ∈ log) :
    LogInv T { c with work := .emit queue.reverse } passed log := by
  have hok := h.work
  rw [hw] at hok
  obtain ⟨d, hd, hcl, hq⟩ := hok
  obtain ⟨r, hr⟩ := T.path d (h.passed_mem d hd)
  refine ⟨h.committed, h.mem, h.nodup, h.first, h.source, h.passed_mem, h.chan, ⟨?_, ?_, ?_⟩, ?_⟩
  · refine List.nodup_append.2 ⟨h.nodup, List.nodup_reverse.2 (hcl.nodup hr), ?_⟩
    rintro x hx y hy rfl
    exact (hq x (List.mem_reverse.1 hy)).2 hx
  · exact h.first.append_reverse hcl hp
  · intro x hx
    rw [List.mem_reverse] at hx
    exact ⟨(hq x hx).1, d, hd, (hcl.between hx).1⟩
  · intro x hx
    have := h.covered x hx
    rw [hw] at this
    simpa [Work.pending] using this

theorem climb (h : LogInv T c passed log) {queue : List (Block D)} {current p : Block D}
    (hw : c.work = .walk queue current) (hp : T.par current = some p) (hpm : T.mem p)
    (hpl : p ∉ log) : LogInv T { c with work := .walk (queue ++ [p]) p } passed log := by
  have hok := h.work
  rw [hw] at hok
  obtain ⟨d, hd, hcl, hq⟩ := hok
  refine ⟨h.committed, h.mem, h.nodup, h.first, h.source, h.passed_mem, h.chan,
    ⟨d, hd, hcl.step hp, fun x hx => ?_⟩, fun x hx => ?_⟩
  · rcases List.mem_append.1 hx with hx | hx
    · exact hq x hx
    · rw [List.mem_singleton.1 hx]
      exact ⟨hpm, hpl⟩
  · have := h.covered x hx
    rw [hw] at this
    rcases this with hx | hx | hx
    · exact Or.inl hx
    · exact Or.inr (Or.inl hx)
    · exact Or.inr (Or.inr (List.mem_append_left _ hx))

theorem emit (h : LogInv T c passed log) {b : Block D} {rest : List (Block D)}
    (hw : c.work = .emit (b :: rest)) :
    LogInv T { c with committedBlcoks := b.hash E :: c.committedBlcoks, work := .emit rest } passed
      (log ++ [b]) := by
  have hok := h.work
  rw [hw] at hok
  obtain ⟨hnd, hpf, hr⟩ := hok
  rw [List.append_cons] at hnd hpf
  obtain ⟨hbm, d, hd, hbd⟩ := hr b List.mem_cons_self
  refine ⟨fun x => ?_, fun x hx => ?_, (List.nodup_append.1 hnd).1, hpf.append_left, fun x hx => ?_,
    h.passed_mem, h.chan, ⟨hnd, hpf, fun x hx => hr x (List.mem_cons_of_mem _ hx)⟩, fun x hx => ?_⟩
  · rw [List.mem_cons, h.committed]
    exact hash_mem_snoc
  · rcases List.mem_append.1 hx with hx | hx
    · exact h.mem x hx
    · rw [List.mem_singleton.1 hx]
      exact hbm
  · rcases List.mem_append.1 hx with hx | hx
    · exact h.source x hx
    · rw [List.mem_singleton.1 hx]
      exact ⟨d, hd, hbd⟩
  · have := h.covered x hx
    rw [hw] at this
    rcases this with hx | hx | hx
    · exact Or.inl (List.mem_append_left _ hx)
    · exact Or.inr (Or.inl hx)
    · rcases List.mem_cons.1 hx with rfl | hx
      · exact Or.inl (List.mem_append_right _ (List.mem_singleton_self _))
      · exact Or.inr (Or.inr hx)

theorem finish (h : LogInv T c passed log) (hw : c.work = .emit []) :
    LogInv T { c with work := .idle } passed log := by
  refine ⟨h.committed, h.mem, h.nodup, h.first, h.source, h.passed_mem, h.chan, trivial,
    fun x hx => ?_⟩
  have := h.covered x hx
  rw [hw] at this
  exact this

theorem current_mem (h : LogInv T c passed log) {queue : List (Block D)} {current : Block D}
    (hw : c.work = .walk queue current) : T.mem current := by
  have hok := h.work
  rw [hw] at hok
  obtain ⟨d, -, hcl, hq⟩ := hok
  exact (hq current hcl.top_mem).1

/-- **A step of `run` keeps the invariant**, whatever the store holds of the forest. -/
theorem run (h : LogInv T c passed log) {st : Store D} (hst : T.Admits st) {c' : Commitor D}
    {bs : List (Block D)} (hr : Commitor.run E st c = some (c', bs)) :
    LogInv T c' passed (log ++ bs) := by
  cases Commitor.step_of_run hr with
  | emit hw => exact h.emit hw
  | drop hw hch hcom => simpa using h.drop hw hch hcom
  | take hw hch hcom => simpa using h.take hw hch hcom
  | @root queue current hw hqc =>
    rw [List.append_nil]
    exact h.turn hw fun p hp => by rw [T.par_none current (h.current_mem hw) hqc] at hp; cases hp
  | wait _ _ _ => simpa using h
  | @turn queue current p qc hw hqc hp hcom =>
    rw [List.append_nil]
    refine h.turn hw fun p' hp' => ?_
    rw [BlockTree.par_of_getBlock hst (h.current_mem hw) hqc hp] at hp'
    cases hp'
    exact (h.hash_mem_iff (hst _ _ hp).1).1 hcom
  | @climb queue current p qc hw hqc hp hcom =>
    have hpm := (hst _ _ hp).1
    rw [List.append_nil]
    exact h.climb hw (BlockTree.par_of_getBlock hst (h.current_mem hw) hqc hp) hpm
      fun hl => hcom ((h.hash_mem_iff hpm).2 hl)
  | finish hw => simpa using h.finish hw

theorem passed_of_quiet (h : LogInv T c passed log) {st : Store D}
    (hq : Commitor.run E st c = none) : ∀ b ∈ passed, b ∈ log := by
  have hidle : c.work = .idle ∧ c.blocksChan = [] := by
    have hok := h.work
    unfold Commitor.run at hq
    split at hq
    · next hw =>
      split at hq
      · next hch => exact ⟨hw, hch⟩
      · split at hq <;> cases hq
    · split at hq
      · cases hq
      · split at hq
        · cases hq
        · split at hq <;> cases hq
    · cases hq
    · cases hq
    · next hw =>
      rw [hw] at hok
      exact hok.elim
  intro b hb
  have := h.covered b hb
  rw [hidle.1, hidle.2] at this
  simpa [Work.pending] using this

/-- The entries of the logs of two commitors are comparable when the blocks that went through are. -/
theorem comparable {c₂ : Commitor D} {passed₂ log₂ : List (Block D)} (h : LogInv T c passed log)
    (h₂ : LogInv T c₂ passed₂ log₂)
    (hcmp : ∀ x ∈ passed ++ passed₂, ∀ y ∈ passed ++ passed₂, Anc T.par x y ∨ Anc T.par y x) :
    ∀ x ∈ log ++ log₂, ∀ y ∈ log ++ log₂, Anc T.par x y ∨ Anc T.par y x := by
  have hsrc : ∀ x ∈ log ++ log₂, ∃ d ∈ passed ++ passed₂, Anc T.par x d := by
    intro x hx
    rcases List.mem_append.1 hx with hx | hx
    · obtain ⟨d, hd, ha⟩ := h.source x hx
      exact ⟨d, List.mem_append_left _ hd, ha⟩
    · obtain ⟨d, hd, ha⟩ := h₂.source x hx
      exact ⟨d, List.mem_append_right _ hd, ha⟩
  intro x hx y hy
  obtain ⟨d, hd, hxd⟩ := hsrc x hx
  obtain ⟨e, he, hye⟩ := hsrc y hy
  rcases hcmp d hd e he with hde | hed
  · exact (hxd.trans hde).comparable hye
  · exact hxd.comparable (hye.trans hed)

/-- **Two commitors whose blocks lie on one chain have prefix-compatible logs.** -/
theorem prefix_compatible {c₂ : Commitor D} {passed₂ log₂ : List (Block D)}
    (h : LogInv T c passed log) (h₂ : LogInv T c₂ passed₂ log₂)
    (hcmp : ∀ x ∈ passed ++ passed₂, ∀ y ∈ passed ++ passed₂, Anc T.par x y ∨ Anc T.par y x) :
    log <+: log₂ ∨ log₂ <+: log :=
  prefix_of_comparable h.first h₂.first h.nodup h₂.nodup (h.comparable h₂ hcmp)

end LogInv

/-! ## A commitor over a fixed store -/

/-- The parent of a block in a store. -/
def parentOf (st : Store D) (b : Block D) : Option (Block D) :=
  b.qc.bind fun qc => getBlock st qc.parentBlockHash

/-- A store that holds every block under its hash and every parent, with no endless way up. -/
structure ClosedStore (E : Env D) (st : Store D) : Prop where
  own : ∀ d b, getBlock st d = some b → b.hash E = d
  resolves : ∀ d b, getBlock st d = some b → ∀ qc, b.qc = some qc →
    (getBlock st qc.parentBlockHash).isSome
  wf : WellFounded fun p b => parentOf st b = some p

namespace ClosedStore

variable {st : Store D}

theorem stored (h : ClosedStore E st) {d : D} {b : Block D} (hb : getBlock st d = some b) :
    Stored E st b := by
  unfold Stored
  rw [h.own d b hb]
  exact hb

/-- The forest of the blocks of the store. -/
def tree (h : ClosedStore E st) : BlockTree E where
  mem := Stored E st
  par := parentOf st
  hash_inj := by
    intro a b ha hb hh
    unfold Stored at ha hb
    rw [hh, hb] at ha
    exact (Option.some.inj ha).symm
  par_none := by
    intro b _ hqc
    simp [parentOf, hqc]
  par_some := by
    intro b hb qc hqc
    obtain ⟨p, hp⟩ := Option.isSome_iff_exists.1 (h.resolves _ b hb qc hqc)
    exact ⟨p, h.stored hp, h.own _ p hp, by simp [parentOf, hqc, hp]⟩
  path := fun b _ => exists_rootPath h.wf b

theorem admits (h : ClosedStore E st) : h.tree.Admits st := fun d b hb => ⟨h.stored hb, h.own d b hb⟩

end ClosedStore

/-- **The way up from a block ends**: over parents that are in the store and not committed it comes to
a block without a certificate, or to one whose parent is in the store and committed. -/
inductive Ascends (E : Env D) (st : Store D) (committed : List D) : Block D → Prop
  | root {b : Block D} : b.qc = none → Ascends E st committed b
  | turn {b p : Block D} {qc : BlockQC D} : b.qc = some qc →
      getBlock st qc.parentBlockHash = some p → p.hash E ∈ committed → Ascends E st committed b
  | climb {b p : Block D} {qc : BlockQC D} : b.qc = some qc →
      getBlock st qc.parentBlockHash = some p → p.hash E ∉ committed → Ascends E st committed p →
      Ascends E st committed b

namespace Feed

variable {st : Store D}

theorem Reach.inv (hst : ClosedStore E st) {s : Feed D} (hs : Reach (Commitor.run E st) s)
    (hcalls : ∀ b ∈ s.calls, Stored E st b) :
    LogInv hst.tree s.commitor s.passed s.log ∧ ∀ b ∈ s.passed, b ∈ s.calls := by
  induction hs with
  | refl => exact ⟨LogInv.new _, by simp [new]⟩
  | tail _ hstep ih =>
    obtain ⟨hinv, hpc⟩ := ih fun b hb => hcalls b (hstep.calls_subset b hb)
    rcases hstep with h | h
    · cases h with
      | @call b c hc =>
        refine ⟨hinv.commit (hcalls b (List.mem_append_right _ (List.mem_singleton_self _))) hc, ?_⟩
        intro x hx
        dsimp only at hx ⊢
        split at hx
        · exact List.mem_append_left _ (hpc x hx)
        · rcases List.mem_append.1 hx with hx | hx
          · exact List.mem_append_left _ (hpc x hx)
          · exact List.mem_append_right _ hx
    · cases h with
      | step hr => exact ⟨hinv.run hst.admits hr, hpc⟩

/-! ## `run` comes to rest -/

theorem drains_emit (rest : List (Block D)) (s : Feed D) (hw : s.commitor.work = .emit rest) :
    ∃ s', Drains (Commitor.run E st) s s' ∧ s'.commitor.work = .idle ∧
      s'.commitor.blocksChan = s.commitor.blocksChan := by
  induction rest generalizing s with
  | nil =>
    have hr : Commitor.run E st s.commitor = some ({ s.commitor with work := .idle }, []) := by
      simp [Commitor.run, hw]
    exact ⟨_, Relation.ReflTransGen.single (Runs.step hr), rfl, rfl⟩
  | cons b rest ih =>
    have hr : Commitor.run E st s.commitor =
        some ({ s.commitor with committedBlcoks := b.hash E :: s.commitor.committedBlcoks
                                work := .emit rest }, [b]) := by
      simp [Commitor.run, hw]
    obtain ⟨s', hd, hidle, hch⟩ := ih
      ⟨{ s.commitor with committedBlcoks := b.hash E :: s.commitor.committedBlcoks
                         work := .emit rest }, s.calls, s.passed, s.log ++ [b]⟩ rfl
    exact ⟨s', Relation.ReflTransGen.head (Runs.step hr) hd, hidle, hch⟩

theorem drains_turn {s : Feed D} (queue : List (Block D))
    (hrun : Commitor.run E st s.commitor = some ({ s.commitor with work := .emit queue.reverse }, [])) :
    ∃ s', Drains (Commitor.run E st) s s' ∧ s'.commitor.work = .idle ∧
      s'.commitor.blocksChan = s.commitor.blocksChan := by
  obtain ⟨s', hd, hidle, hch⟩ := @drains_emit _ _ E st queue.reverse
    ⟨{ s.commitor with work := .emit queue.reverse }, s.calls, s.passed, s.log ++ []⟩ rfl
  exact ⟨s', Relation.ReflTransGen.head (Runs.step hrun) hd, hidle, hch⟩

theorem drains_walk {committed : List D} {current : Block D} (ha : Ascends E st committed current)
    (s : Feed D) (queue : List (Block D)) (hw : s.commitor.work = .walk queue current)
    (hc : s.commitor.committedBlcoks = committed) :
    ∃ s', Drains (Commitor.run E st) s s' ∧ s'.commitor.work = .idle ∧
      s'.commitor.blocksChan = s.commitor.blocksChan := by
  induction ha generalizing s queue with
  | root hqc => exact drains_turn queue (by simp [Commitor.run, hw, hqc])
  | turn hqc hget hcom =>
    exact drains_turn queue (by simp [Commitor.run, hw, hqc, hget, hc, hcom])
  | @climb current p qc hqc hget hcom _ ih =>
    have hrun : Commitor.run E st s.commitor =
        some ({ s.commitor with work := .walk (queue ++ [p]) p }, []) := by
      simp [Commitor.run, hw, hqc, hget, hc, hcom]
    obtain ⟨s', hd, hidle, hch⟩ := ih
      ⟨{ s.commitor with work := .walk (queue ++ [p]) p }, s.calls, s.passed, s.log ++ []⟩
      (queue ++ [p]) rfl hc
    exact ⟨s', Relation.ReflTransGen.head (Runs.step hrun) hd, hidle, hch⟩

/-- In a closed store every way up ends. -/
theorem ascends_of_closed (hst : ClosedStore E st) (committed : List D) {r : List (Block D)}
    {b : Block D} (hr : RootPath (parentOf st) r b) (hb : Stored E st b) :
    Ascends E st committed b := by
  induction hr with
  | @root b hp =>
    cases hqc : b.qc with
    | none => exact Ascends.root hqc
    | some qc =>
      obtain ⟨p, hp'⟩ := Option.isSome_iff_exists.1 (hst.resolves _ _ hb qc hqc)
      simp [parentOf, hqc, hp'] at hp
  | @step l p b hp _ ih =>
    obtain ⟨qc, hqc, hget⟩ := Option.bind_eq_some_iff.1 hp
    by_cases hcom : p.hash E ∈ committed
    · exact Ascends.turn hqc hget hcom
    · exact Ascends.climb hqc hget hcom (ih (hst.stored hget))

theorem drains_idle (hst : ClosedStore E st) (chan : List (Block D)) (s : Feed D)
    (hw : s.commitor.work = .idle) (hch : s.commitor.blocksChan = chan)
    (hmem : ∀ b ∈ chan, Stored E st b) :
    ∃ s', Drains (Commitor.run E st) s s' ∧ Quiet (Commitor.run E st) s' := by
  induction chan generalizing s with
  | nil => exact ⟨s, Relation.ReflTransGen.refl, by simp [Quiet, Commitor.run, hw, hch]⟩
  | cons b rest ih =>
    have hrest : ∀ x ∈ rest, Stored E st x := fun x hx => hmem x (List.mem_cons_of_mem _ hx)
    by_cases hcom : b.hash E ∈ s.commitor.committedBlcoks
    · have hrun : Commitor.run E st s.commitor =
          some ({ s.commitor with blocksChan := rest }, []) := by
        simp [Commitor.run, hw, hch, hcom]
      obtain ⟨s', hd, hq⟩ := ih ⟨{ s.commitor with blocksChan := rest }, s.calls, s.passed,
        s.log ++ []⟩ hw rfl hrest
      exact ⟨s', Relation.ReflTransGen.head (Runs.step hrun) hd, hq⟩
    · have hrun : Commitor.run E st s.commitor =
          some ({ s.commitor with blocksChan := rest, work := .walk [b] b }, []) := by
        simp [Commitor.run, hw, hch, hcom]
      obtain ⟨r, hr⟩ := exists_rootPath hst.wf b
      obtain ⟨s₁, hd₁, hw₁, hch₁⟩ := drains_walk
        (ascends_of_closed hst s.commitor.committedBlcoks hr (hmem b List.mem_cons_self))
        ⟨{ s.commitor with blocksChan := rest, work := .walk [b] b }, s.calls, s.passed, s.log ++ []⟩
        [b] rfl rfl
      obtain ⟨s', hd, hq⟩ := ih s₁ hw₁ hch₁ hrest
      exact ⟨s', Relation.ReflTransGen.head (Runs.step hrun) (hd₁.trans hd), hq⟩

/-- The ancestor loop is at a block from which the way up does not end. -/
def Climbing (E : Env D) (st : Store D) (c : Commitor D) : Prop :=
  ∃ queue current, c.work = .walk queue current ∧ ¬ Ascends E st c.committedBlcoks current

/-- The loop goes on, whether it finds the parent or not. -/
theorem Climbing.run {c c' : Commitor D} {bs : List (Block D)} (h : Climbing E st c)
    (hr : Commitor.run E st c = some (c', bs)) : Climbing E st c' := by
  obtain ⟨queue, current, hw, ha⟩ := h
  cases Commitor.step_of_run hr with
  | root hw' hqc =>
    rw [hw'] at hw
    cases hw
    exact absurd (Ascends.root hqc) ha
  | wait _ _ _ => exact ⟨queue, current, hw, ha⟩
  | turn hw' hqc hp hcom =>
    rw [hw'] at hw
    cases hw
    exact absurd (Ascends.turn hqc hp hcom) ha
  | climb hw' hqc hp hcom =>
    rw [hw'] at hw
    cases hw
    exact ⟨_, _, rfl, fun h => ha (Ascends.climb hqc hp hcom h)⟩
  | drop hw' _ _ => rw [hw'] at hw; cases hw
  | take hw' _ _ => rw [hw'] at hw; cases hw
  | emit hw' => rw [hw'] at hw; cases hw
  | finish hw' => rw [hw'] at hw; cases hw

theorem climbing_of_drains {s s' : Feed D} (h : Climbing E st s.commitor)
    (hd : Drains (Commitor.run E st) s s') : Climbing E st s'.commitor := by
  induction hd with
  | refl => exact h
  | tail _ hr ih =>
    cases hr with
    | step hr => exact ih.run hr

theorem not_ends {s : Feed D} {b : Block D} {rest : List (Block D)}
    (hidle : s.commitor.work = .idle) (hchan : s.commitor.blocksChan = b :: rest)
    (hcom : b.hash E ∉ s.commitor.committedBlcoks)
    (ha : ¬ Ascends E st s.commitor.committedBlcoks b) {s' : Feed D}
    (hd : Drains (Commitor.run E st) s s') :
    s' = s ∨ Climbing E st s'.commitor := by
  rcases Relation.ReflTransGen.cases_head hd with rfl | ⟨s₁, hr, hd⟩
  · exact Or.inl rfl
  · cases hr with
    | step hr =>
      refine Or.inr (climbing_of_drains ?_ hd)
      simp only [Commitor.run, hidle, hchan, if_neg hcom, Option.some.injEq, Prod.mk.injEq] at hr
      obtain ⟨rfl, rfl⟩ := hr
      exact ⟨[b], b, rfl, ha⟩

/-- **Whatever has been handed over, `run` works it off.** -/
theorem Reach.exists_quiet (hst : ClosedStore E st) {s : Feed D} (hs : Reach (Commitor.run E st) s)
    (hcalls : ∀ b ∈ s.calls, Stored E st b) :
    ∃ s', Drains (Commitor.run E st) s s' ∧ Quiet (Commitor.run E st) s' := by
  have hinv := (Reach.inv hst hs hcalls).1
  have hchan : ∀ b ∈ s.commitor.blocksChan, Stored E st b := fun b hb =>
    hinv.passed_mem b (hinv.chan b hb)
  have hwork := hinv.work
  -- first the block in hand, then the channel
  have key : ∃ s₁, Drains (Commitor.run E st) s s₁ ∧ s₁.commitor.work = .idle ∧
      s₁.commitor.blocksChan = s.commitor.blocksChan := by
    cases hw : s.commitor.work with
    | idle => exact ⟨s, Relation.ReflTransGen.refl, hw, rfl⟩
    | walk queue current =>
      rw [hw] at hwork
      obtain ⟨d, -, hcl, hq⟩ := hwork
      obtain ⟨r, hr⟩ := exists_rootPath hst.wf current
      exact drains_walk (ascends_of_closed hst _ hr (hq current hcl.top_mem).1) s queue hw rfl
    | emit rest => exact drains_emit rest s hw
    | bfs queue => rw [hw] at hwork; exact hwork.elim
  obtain ⟨s₁, hd₁, hw₁, hch₁⟩ := key
  obtain ⟨s', hd, hq⟩ := drains_idle hst _ s₁ hw₁ hch₁ hchan
  exact ⟨s', hd₁.trans hd, hq⟩

end Feed

/-! ## A block and its child -/

namespace Pair

/-- A committee of one. -/
def env : Env ℕ := Env.plain 1 fun _ => 0

def root : Block ℕ := ⟨0, 0, HEIGHT_1, ⟨-1, []⟩, none, []⟩

def child : Block ℕ := ⟨0, 0, HEIGHT_2, ⟨-1, []⟩, some ⟨0, HEIGHT_1, 0, root.hash env, []⟩, []⟩

def store : Store ℕ := storeBlock env (storeBlock env (fun _ => none) root) child

/-- The child without its parent. -/
def orphaned : Store ℕ := storeBlock env (fun _ => none) child

/-- A block whose certificate names its own hash, which does not cover the certificate. -/
def loop : Block ℕ :=
  ⟨0, 0, HEIGHT_1, ⟨-1, []⟩, some ⟨0, HEIGHT_1, 0, root.hash env, []⟩, []⟩

def looped : Store ℕ := storeBlock env (fun _ => none) loop

theorem finite_single (b : Block ℕ) :
    {d | (getBlock (storeBlock env (fun _ => none) b) d).isSome}.Finite := by
  refine (Set.finite_singleton (b.hash env)).subset fun d hd => ?_
  obtain ⟨x, hx⟩ := Option.isSome_iff_exists.1 hd
  rcases getBlock_storeBlock hx with ⟨h, -⟩ | h
  · exact h
  · cases h

theorem not_ascends_orphaned : ¬ Ascends env orphaned [] child := by
  have hget : getBlock orphaned (root.hash env) = none := by decide +kernel
  intro h
  cases h with
  | root hqc => cases hqc
  | turn hqc hp _ => cases hqc; rw [hget] at hp; cases hp
  | climb hqc hp _ _ => cases hqc; rw [hget] at hp; cases hp

theorem not_ascends_looped : ¬ Ascends env looped [] loop := by
  have hget : getBlock looped (root.hash env) = some loop := by decide +kernel
  intro h
  generalize hb : loop = b at h
  induction h with
  | root hqc => rw [← hb] at hqc; cases hqc
  | turn _ _ hcom => exact absurd hcom List.not_mem_nil
  | climb hqc hp _ _ ih =>
    rw [← hb] at hqc
    cases hqc
    rw [hget] at hp
    exact ih (Option.some.inj hp)

end Pair

namespace Fork

open Pair

/-- The child goes on, -/
def tip : Block ℕ := ⟨1, 1, HEIGHT_1, ⟨-1, []⟩, some ⟨0, HEIGHT_2, 0, child.hash env, []⟩, []⟩

/-- and the root has another child. -/
def side : Block ℕ := ⟨2, 1, HEIGHT_1, ⟨-1, []⟩, some ⟨0, HEIGHT_1, 0, root.hash env, []⟩, []⟩

def store : Store ℕ := storeBlock env (storeBlock env Pair.store tip) side

theorem store_cases {d : ℕ} {b : Block ℕ} (h : getBlock store d = some b) :
    b ∈ [root, child, tip, side] ∧ b.hash env = d := by
  rcases getBlock_storeBlock h with ⟨rfl, rfl⟩ | h
  · simp
  rcases getBlock_storeBlock h with ⟨rfl, rfl⟩ | h
  · simp
  rcases getBlock_storeBlock h with ⟨rfl, rfl⟩ | h
  · simp
  rcases getBlock_storeBlock h with ⟨rfl, rfl⟩ | h
  · simp
  · cases h

theorem parents : parentOf store root = none ∧ parentOf store child = some root ∧
    parentOf store tip = some child ∧ parentOf store side = some root := by
  decide +kernel

theorem closed : ClosedStore env store where
  own _ _ h := (store_cases h).2
  resolves := by
    have hall : ∀ b ∈ [root, child, tip, side], ∀ qc, b.qc = some qc →
        (getBlock store qc.parentBlockHash).isSome := by
      simp only [List.forall_mem_cons, List.not_mem_nil, IsEmpty.forall_iff, implies_true, and_true]
      refine ⟨?_, ?_, ?_, ?_⟩
      all_goals
        intro qc hqc
        cases hqc
        try decide +kernel
    exact fun d b h => hall b (store_cases h).1
  wf := by
    obtain ⟨hroot, hchild, htip, hside⟩ := parents
    -- from every block the way up ends at the root
    have aroot : Acc (fun p b => parentOf store b = some p) root :=
      Acc.intro _ fun p hp => by rw [hroot] at hp; cases hp
    have achild : Acc (fun p b => parentOf store b = some p) child :=
      Acc.intro _ fun p hp => by rw [hchild] at hp; cases hp; exact aroot
    have atip : Acc (fun p b => parentOf store b = some p) tip :=
      Acc.intro _ fun p hp => by rw [htip] at hp; cases hp; exact achild
    have aside : Acc (fun p b => parentOf store b = some p) side :=
      Acc.intro _ fun p hp => by rw [hside] at hp; cases hp; exact aroot
    refine ⟨fun b => Acc.intro _ fun p hp => ?_⟩
    obtain ⟨qc, -, hp⟩ := Option.bind_eq_some_iff.1 hp
    have hmem := (store_cases hp).1
    simp only [List.mem_cons, List.not_mem_nil, or_false] at hmem
    rcases hmem with rfl | rfl | rfl | rfl
    · exact aroot
    · exact achild
    · exact atip
    · exact aside

theorem stored : ∀ b ∈ [root, child, tip, side], Stored env store b := by
  unfold Stored
  decide +kernel

theorem chain : ∀ x ∈ [root, child, tip], ∀ y ∈ [root, child, tip],
    Anc (parentOf store) x y ∨ Anc (parentOf store) y x := by
  obtain ⟨-, hchild, htip, -⟩ := parents
  have h₁ : Anc (parentOf store) root child := Relation.ReflTransGen.single hchild
  have h₂ : Anc (parentOf store) child tip := Relation.ReflTransGen.single htip
  have h₃ : Anc (parentOf store) root tip := h₁.trans h₂
  simp only [List.forall_mem_cons, List.not_mem_nil, IsEmpty.forall_iff, implies_true, and_true]
  exact ⟨⟨Or.inl (Anc.refl _), Or.inl h₁, Or.inl h₃⟩, ⟨Or.inr h₁, Or.inl (Anc.refl _), Or.inl h₂⟩,
    Or.inr h₃, Or.inr h₂, Or.inl (Anc.refl _)⟩

/-- The blocks are committed in this order, and everything is worked off in between. -/
def fed (bs : List (Block ℕ)) : Feed ℕ := Feed.feed (Commitor.run env store) 8 Feed.new bs

theorem reach_fed (bs : List (Block ℕ)) : Feed.Reach (Commitor.run env store) (fed bs) :=
  Feed.reach_feed Relation.ReflTransGen.refl 8 bs

end Fork

/-! ## The ancestor loop -/

/-- **When the ancestor loop ends.** Over a store that does not change, `run` takes `b` off the channel
and comes back exactly if `b` is committed or the way up from it ends: if over parents that are in the
store and not committed it comes to a block without a certificate or with a committed parent. -/
theorem linear_walk_ends_iff {st : Store D} {s : Feed D} {b : Block D} {rest : List (Block D)}
    (hidle : s.commitor.work = .idle) (hchan : s.commitor.blocksChan = b :: rest) :
    (∃ s', Feed.Drains (Commitor.run E st) s s' ∧ s'.commitor.work = .idle ∧
      s'.commitor.blocksChan = rest) ↔
      b.hash E ∈ s.commitor.committedBlcoks ∨ Ascends E st s.commitor.committedBlcoks b := by
  constructor
  · rintro ⟨s', hd, hw, hch⟩
    by_contra hno
    rw [not_or] at hno
    rcases Feed.not_ends hidle hchan hno.1 hno.2 hd with rfl | ⟨queue, current, hw', -⟩
    · rw [hchan] at hch
      exact List.cons_ne_self b rest hch
    · rw [hw] at hw'
      cases hw'
  · intro h
    by_cases hcom : b.hash E ∈ s.commitor.committedBlcoks
    · have hrun : Commitor.run E st s.commitor = some ({ s.commitor with blocksChan := rest }, []) := by
        simp [Commitor.run, hidle, hchan, hcom]
      exact ⟨_, Relation.ReflTransGen.single (Feed.Runs.step hrun), hidle, rfl⟩
    · have hrun : Commitor.run E st s.commitor =
          some ({ s.commitor with blocksChan := rest, work := .walk [b] b }, []) := by
        simp [Commitor.run, hidle, hchan, hcom]
      obtain ⟨s', hd, hw, hch⟩ := Feed.drains_walk (h.resolve_left hcom)
        ⟨{ s.commitor with blocksChan := rest, work := .walk [b] b }, s.calls, s.passed, s.log ++ []⟩
        [b] rfl rfl
      exact ⟨s', Relation.ReflTransGen.head (Feed.Runs.step hrun) hd, hw, hch⟩

/-- The parent of the child is in the store, and has no parent. -/
theorem linear_walk_ends_iff_pair :
    ∃ s', Feed.Drains (Commitor.run Pair.env Pair.store)
      ⟨⟨0, HEIGHT_2, [], [Pair.child], .idle⟩, [Pair.child], [Pair.child], []⟩ s' ∧
      s'.commitor.work = .idle ∧ s'.commitor.blocksChan = [] := by
  refine Iff.mpr (linear_walk_ends_iff (b := Pair.child) rfl rfl) (Or.inr ?_)
  have hget : getBlock Pair.store (Pair.root.hash Pair.env) = some Pair.root := by decide +kernel
  exact Ascends.climb rfl hget List.not_mem_nil (Ascends.root rfl)

/-- **Walks that do not end.** The child is handed over while its parent is missing, and a block whose
certificate names its own hash is handed over: in neither case does `run` come back. -/
theorem linear_walk_hangs :
    ∃ (E : Env ℕ) (st st' : Store ℕ) (b b' : Block ℕ) (s s' : Feed ℕ),
      {d | (getBlock st d).isSome}.Finite ∧ {d | (getBlock st' d).isSome}.Finite ∧
      Stored E st b ∧ Stored E st' b' ∧
      Feed.Reach (Commitor.run E st) s ∧ s.calls = [b] ∧ s.commitor.blocksChan = [b] ∧
      (∀ t, Feed.Drains (Commitor.run E st) s t →
        t = s ∨ ∃ queue current, t.commitor.work = .walk queue current) ∧
      Feed.Reach (Commitor.run E st') s' ∧ s'.calls = [b'] ∧ s'.commitor.blocksChan = [b'] ∧
      ∀ t, Feed.Drains (Commitor.run E st') s' t →
        t = s' ∨ ∃ queue current, t.commitor.work = .walk queue current := by
  have hwalk : ∀ {st : Store ℕ} {t : Feed ℕ}, Feed.Climbing Pair.env st t.commitor →
      ∃ queue current, t.commitor.work = .walk queue current := by
    rintro st t ⟨queue, current, hw, -⟩
    exact ⟨queue, current, hw⟩
  refine ⟨Pair.env, Pair.orphaned, Pair.looped, Pair.child, Pair.loop,
    ⟨⟨0, HEIGHT_2, [], [Pair.child], .idle⟩, [Pair.child], [Pair.child], []⟩,
    ⟨⟨0, HEIGHT_1, [], [Pair.loop], .idle⟩, [Pair.loop], [Pair.loop], []⟩,
    Pair.finite_single _, Pair.finite_single _, ?_, ?_, ?_, rfl, rfl, fun t ht => ?_, ?_, rfl, rfl,
    fun t ht => ?_⟩
  · simp [Stored, getBlock, Pair.orphaned, storeBlock]
  · simp [Stored, getBlock, Pair.looped, storeBlock]
  · exact Relation.ReflTransGen.single (Or.inl (Feed.Commits.call (s := Feed.new) rfl))
  · exact (Feed.not_ends rfl rfl List.not_mem_nil Pair.not_ascends_orphaned ht).imp_right hwalk
  · exact Relation.ReflTransGen.single (Or.inl (Feed.Commits.call (s := Feed.new) rfl))
  · exact (Feed.not_ends rfl rfl List.not_mem_nil Pair.not_ascends_looped ht).imp_right hwalk

/-! ## The log -/

/-- **Forks.** For every closed store and every feed of it, on any branches, in any order and with
repetitions: no hash is emitted twice, a block is emitted after its parent, and the committed hashes
are the emitted ones and closed under parents. -/
theorem log_parent_closed {st : Store D} (hst : ClosedStore E st) {s : Feed D}
    (hs : Feed.Reach (Commitor.run E st) s) (hcalls : ∀ b ∈ s.calls, Stored E st b) :
    (s.log.map (Block.hash E)).Nodup ∧
    (∀ l₁ b l₂, s.log = l₁ ++ b :: l₂ → ∀ qc, b.qc = some qc →
      ∃ p ∈ l₁, getBlock st qc.parentBlockHash = some p) ∧
    (∀ d, d ∈ s.commitor.committedBlcoks ↔ d ∈ s.log.map (Block.hash E)) ∧
    (∀ d ∈ s.commitor.committedBlcoks, ∀ b, getBlock st d = some b → ∀ qc, b.qc = some qc →
      qc.parentBlockHash ∈ s.commitor.committedBlcoks) := by
  obtain ⟨hinv, -⟩ := Feed.Reach.inv hst hs hcalls
  have hparent : ∀ b, Stored E st b → ∀ qc, b.qc = some qc →
      ∃ p, getBlock st qc.parentBlockHash = some p ∧ parentOf st b = some p := by
    intro b hb qc hqc
    obtain ⟨p, hp⟩ := Option.isSome_iff_exists.1 (hst.resolves _ b hb qc hqc)
    exact ⟨p, hp, by simp [parentOf, hqc, hp]⟩
  refine ⟨?_, ?_, ?_, ?_⟩
  · refine (List.nodup_map_iff_inj_on hinv.nodup).2 fun a ha b hb hh => ?_
    exact hst.tree.hash_inj a b (hinv.mem a ha) (hinv.mem b hb) hh
  · intro l₁ b l₂ hl qc hqc
    have hb : b ∈ s.log := by rw [hl]; simp
    obtain ⟨p, hp, hpar⟩ := hparent b (hinv.mem b hb) qc hqc
    exact ⟨p, hinv.first l₁ b l₂ hl p hpar, hp⟩
  · intro d
    rw [hinv.committed, List.mem_map]
  · intro d hd b hb qc hqc
    obtain ⟨a, ha, hah⟩ := (hinv.committed d).1 hd
    obtain ⟨p, hp, hpar⟩ := hparent b (hst.stored hb) qc hqc
    have hab : a = b := by
      have has : getBlock st (a.hash E) = some a := hinv.mem a ha
      rw [hah, hb] at has
      exact (Option.some.inj has).symm
    subst hab
    exact (hinv.committed _).2 ⟨p, hinv.first.closed ha hpar, hst.own _ p hp⟩

/-- Both branches are committed, and one of them a second time. -/
theorem log_parent_closed_fork :
    (Fork.fed [Pair.child, Fork.tip, Fork.side, Fork.tip]).log =
      [Pair.root, Pair.child, Fork.tip, Fork.side] ∧
    ([Pair.root, Pair.child, Fork.tip, Fork.side].map (Block.hash Pair.env)).Nodup ∧
    ∃ p ∈ [Pair.root, Pair.child, Fork.tip], getBlock Fork.store (Pair.root.hash Pair.env) = some p := by
  have hlog : (Fork.fed [Pair.child, Fork.tip, Fork.side, Fork.tip]).log =
      [Pair.root, Pair.child, Fork.tip, Fork.side] := by
    decide +kernel
  have hcalls : (Fork.fed [Pair.child, Fork.tip, Fork.side, Fork.tip]).calls ⊆
      [Pair.root, Pair.child, Fork.tip, Fork.side] := by
    decide +kernel
  obtain ⟨hnodup, hparent, -⟩ := log_parent_closed Fork.closed (Fork.reach_fed _)
    fun b hb => Fork.stored b (hcalls hb)
  rw [hlog] at hnodup hparent
  exact ⟨hlog, hnodup, hparent [Pair.root, Pair.child, Fork.tip] Fork.side [] rfl _ rfl⟩

/-- **Chains.** When the blocks that `Commit` was called with are pairwise equal or related by
ancestry, `run` comes to rest, and then the log is the path from the root to the lowest block that
went through `Commit`, each block once; and two commitors whose calls lie on one chain have
prefix-compatible logs at all times. -/
theorem log_eq_root_path {st : Store D} (hst : ClosedStore E st) {s : Feed D}
    (hs : Feed.Reach (Commitor.run E st) s) (hcalls : ∀ b ∈ s.calls, Stored E st b)
    (hcmp : ∀ x ∈ s.calls, ∀ y ∈ s.calls, Anc (parentOf st) x y ∨ Anc (parentOf st) y x) :
    (∃ s', Feed.Drains (Commitor.run E st) s s' ∧ Feed.Quiet (Commitor.run E st) s') ∧
    (∀ s', Feed.Drains (Commitor.run E st) s s' → Feed.Quiet (Commitor.run E st) s' →
      s'.passed = s.passed ∧ s'.log.Nodup ∧ (s.passed = [] ∧ s'.log = [] ∨
        ∃ d ∈ s.passed, (∀ x ∈ s.passed, Anc (parentOf st) x d) ∧
          RootPath (parentOf st) s'.log d)) ∧
    ∀ s₂, Feed.Reach (Commitor.run E st) s₂ → (∀ b ∈ s₂.calls, Stored E st b) →
      (∀ x ∈ s.calls ++ s₂.calls, ∀ y ∈ s.calls ++ s₂.calls,
        Anc (parentOf st) x y ∨ Anc (parentOf st) y x) →
      s.log <+: s₂.log ∨ s₂.log <+: s.log := by
  obtain ⟨hinv, hpc⟩ := Feed.Reach.inv hst hs hcalls
  refine ⟨Feed.Reach.exists_quiet hst hs hcalls, fun s' hd hq => ?_, fun s₂ hs₂ hcalls₂ hcmp₂ => ?_⟩
  · obtain ⟨hsc, hsp⟩ := hd.same
    have hinv' := (Feed.Reach.inv hst (hd.reach hs) (hsc ▸ hcalls)).1
    refine ⟨hsp, hinv'.nodup, ?_⟩
    rw [hsp] at hinv'
    have hall := hinv'.passed_of_quiet hq
    rcases eq_or_ne s.passed [] with hnil | hne
    · refine Or.inl ⟨hnil, List.eq_nil_iff_forall_not_mem.2 fun x hx => ?_⟩
      obtain ⟨d, hd, -⟩ := hinv'.source x hx
      rw [hnil] at hd
      exact absurd hd List.not_mem_nil
    · obtain ⟨d, hd, hlow⟩ := exists_lowest hne fun x hx y hy => hcmp x (hpc x hx) y (hpc y hy)
      refine Or.inr ⟨d, hd, hlow, hinv'.first.rootPath hinv'.nodup (hall d hd) fun x hx => ?_⟩
      obtain ⟨e, he, hxe⟩ := hinv'.source x hx
      exact hxe.trans (hlow e he)
  · obtain ⟨hinv₂, hpc₂⟩ := Feed.Reach.inv hst hs₂ hcalls₂
    have hsub : ∀ x ∈ s.passed ++ s₂.passed, x ∈ s.calls ++ s₂.calls := by
      intro x hx
      rcases List.mem_append.1 hx with hx | hx
      · exact List.mem_append_left _ (hpc x hx)
      · exact List.mem_append_right _ (hpc₂ x hx)
    exact hinv.prefix_compatible hinv₂ fun x hx y hy => hcmp₂ x (hsub x hx) y (hsub y hy)

/-- The blocks of one branch are committed, the root late and the tip twice. Another commitor has got as far
as the child. -/
theorem log_eq_root_path_fork :
    (Fork.fed [Pair.child, Fork.tip, Pair.root, Fork.tip]).log = [Pair.root, Pair.child, Fork.tip] ∧
    RootPath (parentOf Fork.store) [Pair.root, Pair.child, Fork.tip] Fork.tip ∧
    ((Fork.fed [Pair.child, Fork.tip, Pair.root, Fork.tip]).log <+: (Fork.fed [Pair.child]).log ∨
      (Fork.fed [Pair.child]).log <+: (Fork.fed [Pair.child, Fork.tip, Pair.root, Fork.tip]).log) := by
  have hlog : (Fork.fed [Pair.child, Fork.tip, Pair.root, Fork.tip]).log =
      [Pair.root, Pair.child, Fork.tip] := by
    decide +kernel
  have hquiet : Feed.Quiet (Commitor.run Pair.env Fork.store)
      (Fork.fed [Pair.child, Fork.tip, Pair.root, Fork.tip]) :=
    Option.isNone_iff_eq_none.1 (by decide +kernel)
  have hcalls : (Fork.fed [Pair.child, Fork.tip, Pair.root, Fork.tip]).calls ++
      (Fork.fed [Pair.child]).calls ⊆ [Pair.root, Pair.child, Fork.tip] := by
    decide +kernel
  have hstored (b : Block ℕ) (hb : b ∈ (Fork.fed [Pair.child, Fork.tip, Pair.root, Fork.tip]).calls ++
      (Fork.fed [Pair.child]).calls) : Stored Pair.env Fork.store b :=
    Fork.stored b (List.mem_append_left [Fork.side] (hcalls hb))
  obtain ⟨-, hrest, hcompat⟩ := log_eq_root_path Fork.closed (Fork.reach_fed _)
    (fun b hb => hstored b (List.mem_append_left _ hb))
    fun x hx y hy => Fork.chain x (hcalls (List.mem_append_left _ hx)) y
      (hcalls (List.mem_append_left _ hy))
  obtain ⟨-, -, h⟩ := hrest _ Relation.ReflTransGen.refl hquiet
  refine ⟨hlog, ?_, hcompat _ (Fork.reach_fed _) (fun b hb => hstored b (List.mem_append_right _ hb))
    fun x hx y hy => Fork.chain x (hcalls hx) y (hcalls hy)⟩
  rw [hlog] at h
  rcases h with ⟨-, h⟩ | ⟨d, -, -, h⟩
  · cases h
  · rwa [← Option.some.inj h.getLast?_eq] at h

end S2Pac
