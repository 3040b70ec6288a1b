import S2Pac.Conduct

/-!
# What the store of a node holds

The store is what the accepted proposals have put in, one after the other (`Conducts.store_eq`): every
entry stands under the hash of its block, entries are overwritten and never removed, and every accepted
proposal is there. What an instance has recorded is therefore found (`Conducts.resolves`).

`Block.Hash` covers neither the certificate nor the references nor the transactions, and `storeBlock`
overwrites: a digest pins the content of a block where the accepted proposals with the same bytes agree
on it (`digest_pins_content`).
-/

set_option linter.unusedSectionVars false

namespace S2Pac

open Lib

variable {D : Type} [DecidableEq D] {J : Type}

/-! ## Lists of messages -/

section Filing

variable {E : Env D} {docG : Bool}

/-- The store after the messages `l`. -/
def filedAll (E : Env D) (docG : Bool) (l : List (Msg D)) : Store D :=
  l.foldl (filed E docG) fun _ => none

theorem filedAll_append (l : List (Msg D)) (m : Msg D) :
    filedAll E docG (l ++ [m]) = filed E docG (filedAll E docG l) m := by
  simp [filedAll]

/-- What a message puts in the store is the block of an accepted proposal; the rest stays. -/
theorem getBlock_filed {st : Store D} {m : Msg D} {d : D} {b : Block D}
    (h : getBlock (filed E docG st m) d = some b) :
    (∃ p, m = .propose p ∧ m.passes E docG = true ∧ p.b = b ∧ b.hash E = d) ∨
      getBlock st d = some b := by
  by_cases hp : m.passes E docG = true
  · cases m with
    | propose p =>
      rw [filed_propose hp] at h
      rcases getBlock_storeBlock h with ⟨rfl, rfl⟩ | h
      · exact Or.inl ⟨p, rfl, hp, rfl, rfl⟩
      · exact Or.inr h
    | _ => exact Or.inr h
  · rw [filed_of_fails fun h => absurd h hp] at h
    exact Or.inr h

theorem filed_stays {st : Store D} {d : D} (h : getBlock st d ≠ none) (m : Msg D) :
    getBlock (filed E docG st m) d ≠ none := by
  by_cases hp : m.passes E docG = true
  · cases m with
    | propose p =>
      rw [filed_propose hp]
      by_cases hd : d = p.b.hash E
      · subst hd
        simp [getBlock, storeBlock]
      · simpa [getBlock, storeBlock, hd] using h
    | _ => exact h
  · rw [filed_of_fails fun h => absurd h hp]
    exact h

theorem filedAll_source {l : List (Msg D)} {d : D} {b : Block D}
    (h : getBlock (filedAll E docG l) d = some b) :
    b.hash E = d ∧ ∃ p, Msg.propose p ∈ l.filter (Msg.passes E docG) ∧ p.b = b := by
  induction l using List.reverseRecOn with
  | nil => simp [filedAll, getBlock] at h
  | append_singleton l m ih =>
    rw [filedAll_append] at h
    rcases getBlock_filed h with ⟨p, rfl, hp, hb, hd⟩ | h
    · exact ⟨hd, p, by simp [hp], hb⟩
    · obtain ⟨hd, p, hp, hb⟩ := ih h
      exact ⟨hd, p, by rw [List.filter_append]; exact List.mem_append_left _ hp, hb⟩

/-- Every accepted proposal is found under the hash of its block. -/
theorem filedAll_found {l : List (Msg D)} {p : ProposeMsg D}
    (h : Msg.propose p ∈ l.filter (Msg.passes E docG)) :
    ∃ b, getBlock (filedAll E docG l) (p.b.hash E) = some b := by
  rw [← Option.ne_none_iff_exists']
  induction l using List.reverseRecOn with
  | nil => simp at h
  | append_singleton l m ih =>
    rw [filedAll_append]
    rw [List.filter_append] at h
    rcases List.mem_append.1 h with h | h
    · exact filed_stays (ih h) m
    · obtain ⟨hm, hp⟩ := List.mem_filter.1 h
      obtain rfl := List.mem_singleton.1 hm
      rw [filed_propose hp]
      simp [getBlock, storeBlock]

end Filing

/-! ## Runs of a node -/

namespace Conducts

variable {E : Env D} {docG : Bool} {spawn : Msg D → List (Key × J)}
  {step : NodeID → Key → SPB D → J → SPB D → List J → List (NodeOut D) → Prop}
  {second : Node D J → NodeID → ℤ → Bool} {M : Machine NodeID (Node D J) (Msg D) Act (Event D)}
  {G : Machine.Guard NodeID (Node D J) (Msg D) Act (Event D)} {self : NodeID}
  {h h' : NodeHost D J} (hM : Conducts E docG spawn step second M)
include hM

theorem act_store {c : Node D J} {a : Act} {r : Moved D J} (hs : M.act self c a = some r) :
    r.1.store = c.store := by
  cases hM.act _ _ _ _ hs with
  | task _ _ _ _ _ hmain => exact hmain.store
  | coin _ hc =>
    obtain ⟨c', os⟩ := r
    cases hc <;> rfl
  | commitor _ hr => rw [hr]
  | rest _ _ _ hst => exact hst

/-- **The store is what the accepted proposals have put in.** -/
theorem store_eq (hl : M.Local G self h) : h.st.store = filedAll E docG h.received := by
  induction hl with
  | start => rw [Machine.start, hM.init]; rfl
  | recv _ _ hs ih => rw [filedAll_append, ← ih]; exact (hM.recv _ _ _ _ hs).store
  | act _ _ hs ih => exact (hM.act_store hs).trans ih

theorem stored_source (hl : M.Local G self h) {d : D} {b : Block D}
    (hb : getBlock h.st.store d = some b) :
    b.hash E = d ∧ ∃ p, Msg.propose p ∈ h.received.filter (Msg.passes E docG) ∧ p.b = b := by
  rw [hM.store_eq hl] at hb
  exact filedAll_source hb

theorem stored_stays (hl : M.Local G self h) (hs : M.LocalSteps G self h h') {d : D}
    (hd : getBlock h.st.store d ≠ none) : getBlock h'.st.store d ≠ none := by
  obtain ⟨b, hb⟩ := Option.ne_none_iff_exists'.1 hd
  obtain ⟨rfl, p, hp, rfl⟩ := hM.stored_source hl hb
  rw [hM.store_eq (hl.steps hs), Option.ne_none_iff_exists']
  exact filedAll_found ((Machine.LocalSteps.received_prefix hs).filter _ |>.subset hp)

/-- **What an instance has recorded is in the store.** -/
theorem resolves (hl : M.Local G self h) {k : Key} {height : ℕ} (hh : height ≤ HEIGHT_2)
    (hz : (h.st.spbInstances k).blockHash height ≠ E.zero) :
    ∃ b, getBlock h.st.store ((h.st.spbInstances k).blockHash height) = some b ∧
      b.hash E = (h.st.spbInstances k).blockHash height := by
  rcases hM.recorded _ _ (hM.run hl) k height hh with h0 | ⟨p, hp, -, -, he⟩
  · exact absurd h0 hz
  · obtain ⟨b, hb⟩ := filedAll_found hp
    rw [← hM.store_eq hl] at hb
    rw [show (h.st.spbInstances k).blockHash height = p.b.hash E from he]
    exact ⟨b, hb, (hM.stored_source hl hb).1⟩

end Conducts

/-! ## What a digest pins -/

/-- The blocks have the same parent link, the same references and the same batch. -/
structure SameContent (b b' : Block D) : Prop where
  qc : b.qc = b'.qc
  references : b.references = b'.references
  batch : b.batch = b'.batch

/-- The accepted proposals whose blocks have the same bytes have the same content. -/
def Uniform (E : Env D) (docG : Bool) (l : List (Msg D)) : Prop :=
  ∀ p p', Msg.propose p ∈ l.filter (Msg.passes E docG) →
    Msg.propose p' ∈ l.filter (Msg.passes E docG) → p.b.preimage = p'.b.preimage →
    SameContent p.b p'.b

/-- Once `getBlock(d)` has returned a block, it returns one with the same content from then on, in the
runs of a node whose accepted proposals are uniform. -/
def PinsContent (E : Env D) (docG : Bool) (M : Machine NodeID (Node D J) (Msg D) Act (Event D)) :
    Prop :=
  ∀ self h h', M.Local Machine.anyInput self h → M.LocalSteps Machine.anyInput self h h' →
    Uniform E docG h'.received → ∀ d b, getBlock h.st.store d = some b →
      ∃ b', getBlock h'.st.store d = some b' ∧ SameContent b b'

theorem Conducts.pinsContent {E : Env D} {docG : Bool} {spawn : Msg D → List (Key × J)}
    {step : NodeID → Key → SPB D → J → SPB D → List J → List (NodeOut D) → Prop}
    {second : Node D J → NodeID → ℤ → Bool} {M : Machine NodeID (Node D J) (Msg D) Act (Event D)}
    (hM : Conducts E docG spawn step second M) (hsha : Function.Injective E.sum256) :
    PinsContent E docG M := by
  intro self h h' hl hs hu d b hb
  have hne := hM.stored_stays hl hs (hb ▸ Option.some_ne_none b)
  obtain ⟨b', hb'⟩ := Option.ne_none_iff_exists'.1 hne
  obtain ⟨hd, p, hp, rfl⟩ := hM.stored_source hl hb
  obtain ⟨hd', p', hp', rfl⟩ := hM.stored_source (hl.steps hs) hb'
  have hpre := (Machine.LocalSteps.received_prefix hs).filter (Msg.passes E docG)
  exact ⟨p'.b, hb', hu p p' (hpre.subset hp) hp' (hsha (hd.trans hd'.symm))⟩

/-- **A digest pins the content of a block** in the runs whose accepted proposals are uniform, for the
three protocols. -/
theorem digest_pins_content (E : Env D) (hsha : Function.Injective E.sum256) :
    PinsContent E true (Core.machine E) ∧ PinsContent E false (BigCore.machine E) ∧
      PinsContent E true (DAGBigCore.machine E) :=
  ⟨(Core.conducts E).pinsContent hsha, (BigCore.conducts E).pinsContent hsha,
    (DAGBigCore.conducts E).pinsContent hsha⟩

theorem Env.plain_sum256_injective (n : ℕ) (coin : ℕ → UInt8) :
    Function.Injective (Env.plain n coin).sum256 := by
  have hsnoc (l : Bytes) (b : UInt8) : (Env.plain n coin).sum256 (l ++ [b]) =
      (Env.plain n coin).sum256 l * 256 + b.toNat + 1 := by simp [Env.plain]
  intro l
  -- the last byte is what remains modulo 256
  induction l using List.reverseRecOn with
  | nil =>
    intro l' h
    cases l' using List.reverseRecOn with
    | nil => rfl
    | append_singleton l' b =>
      rw [hsnoc] at h
      exact absurd h (by simp [Env.plain])
  | append_singleton l b ih =>
    intro l' h
    cases l' using List.reverseRecOn with
    | nil =>
      rw [hsnoc] at h
      exact absurd h (by simp [Env.plain])
    | append_singleton l' b' =>
      rw [hsnoc, hsnoc] at h
      have hb := b.toNat_lt
      have hb' := b'.toNat_lt
      obtain ⟨hl, hbb⟩ : (Env.plain n coin).sum256 l = (Env.plain n coin).sum256 l' ∧
          b.toNat = b'.toNat := by
        constructor <;> omega
      rw [ih hl, UInt8.toNat_inj.1 hbb]

namespace Rewrite

/-- A proposal of node 1 for view 0 without transactions, with the certificate `qc`. -/
def proposal (qc : Option (BlockQC ℕ)) : Msg ℕ :=
  .propose (newProposeMsg (Env.plain 4 fun _ => 0) 1 ⟨1, 0, HEIGHT_1, ⟨-1, []⟩, qc, []⟩)

/-- A certificate of a block of node 2. -/
def link : BlockQC ℕ := ⟨0, HEIGHT_2, 2, 7, []⟩

/-- Node 0 is handed the proposal without a parent link. -/
def before : NodeHost ℕ (SpbJob ℕ) :=
  (Core.machine (Env.plain 4 fun _ => 0)).feed Machine.anyInput 0
    ((Core.machine (Env.plain 4 fun _ => 0)).start 0) [.act .boot, .recv (proposal none)]

/-- It is handed the proposal again, or the one with a parent link. -/
def after (qc : Option (BlockQC ℕ)) : NodeHost ℕ (SpbJob ℕ) :=
  (Core.machine (Env.plain 4 fun _ => 0)).feed Machine.anyInput 0 before [.recv (proposal qc)]

def digest : ℕ := (⟨1, 0, HEIGHT_1, ⟨-1, []⟩, none, []⟩ : Block ℕ).hash (Env.plain 4 fun _ => 0)

end Rewrite

theorem digest_pins_content_again :
    ∃ b b', getBlock Rewrite.before.st.store Rewrite.digest = some b ∧
      getBlock (Rewrite.after none).st.store Rewrite.digest = some b' ∧ SameContent b b' := by
  obtain ⟨b, hb⟩ := Option.isSome_iff_exists.1
    (show (getBlock Rewrite.before.st.store Rewrite.digest).isSome by decide +kernel)
  have hl : (Core.machine (Env.plain 4 fun _ => 0)).Local Machine.anyInput 0 Rewrite.before :=
    Machine.Local.start.steps (Machine.feed_sound _ _ _)
  have hu : Uniform (Env.plain 4 fun _ => 0) true (Rewrite.after none).received := by
    have hall : ∀ m ∈ (Rewrite.after none).received, m = Rewrite.proposal none := by decide +kernel
    intro p p' hp hp' _
    have hpp : Msg.propose p = Msg.propose p' :=
      (hall _ (List.mem_of_mem_filter hp)).trans (hall _ (List.mem_of_mem_filter hp')).symm
    rw [Msg.propose.inj hpp]
    exact ⟨rfl, rfl, rfl⟩
  obtain ⟨b', hb', hsame⟩ := (digest_pins_content _ (Env.plain_sum256_injective 4 _)).1 0 _ _ hl
    (Machine.feed_sound _ _ _) hu _ b hb
  exact ⟨b, b', hb, hb', hsame⟩

/-- **A digest does not pin the parent link**: the second proposal has the same bytes and the same
signature, and what is in the store changes. -/
theorem digest_rewritten :
    (Core.machine (Env.plain 4 fun _ => 0)).Local Machine.anyInput 0 Rewrite.before ∧
      (Core.machine (Env.plain 4 fun _ => 0)).LocalSteps Machine.anyInput 0 Rewrite.before
        (Rewrite.after (some Rewrite.link)) ∧
      (∀ m ∈ (Rewrite.after (some Rewrite.link)).received,
        m.passes (Env.plain 4 fun _ => 0) true = true) ∧
      (getBlock Rewrite.before.st.store Rewrite.digest).map (·.qc) = some none ∧
      (getBlock (Rewrite.after (some Rewrite.link)).st.store Rewrite.digest).map (·.qc) =
        some (some Rewrite.link) :=
  ⟨Machine.Local.start.steps (Machine.feed_sound _ _ _), Machine.feed_sound _ _ _,
    by decide +kernel, by decide +kernel, by decide +kernel⟩

end S2Pac
