import S2Pac.Slots

/-!
# Certificates and the hashes they stand next to

An instance keeps the hash of the last block it accepted at a height and, apart from it, the certificate
of a height. A later proposal overwrites the hash and not the certificate, and a certificate of the zero
digest fits a height at which nothing was recorded. Where a slot has one block and nobody names the zero
digest, the two belong together (`certificates_match`), so that the branch of `DecCert()` commits the
certified block.

In the big protocols a certificate is made of votes that were found right, so that it names a block that
was accepted for its slot, whatever is recorded there by then (`BigSPB.accepted_of_certificate`).
-/

set_option linter.unusedSectionVars false

namespace S2Pac

open Lib

variable {D : Type} [DecidableEq D] {J : Type}

/-- The proposals of a slot have the same hash. -/
def OneBlock (E : Env D) (l : List (Msg D)) : Prop :=
  ∀ p p', Msg.propose p ∈ l → Msg.propose p' ∈ l → p.view = p'.view → p.author = p'.author →
    p.height = p'.height → p.b.hash E = p'.b.hash E

/-- No certificate that the lean protocol takes names the zero digest, -/
def NoZeroQc (E : Env D) (l : List (Msg D)) : Prop :=
  (∀ p qc, Msg.propose p ∈ l → p.height = HEIGHT_2 → p.b.qc = some qc →
    qc.parentBlockHash ≠ E.zero) ∧
  ∀ fv qc, Msg.finVote fv ∈ l → fv.qc = some qc → qc.parentBlockHash ≠ E.zero

/-- nor a vote of the big protocol. -/
def NoZeroVote (E : Env D) (l : List (Msg D)) : Prop :=
  ∀ v, Msg.vote v ∈ l → v.blockHash ≠ E.zero

/-- The digest that a vote names. -/
def Msg.voted : Msg D → Option D
  | .vote v => some v.blockHash
  | _ => none

/-- The certificates of an instance are those of the blocks it has recorded. -/
def SPB.Fits (E : Env D) (s : SPB D) : Prop :=
  ∀ height qc, s.blockQcs height = some qc →
    s.blockHash height = qc.parentBlockHash ∧ qc.parentBlockHash ≠ E.zero

theorem OneBlock.mono {E : Env D} {l l' : List (Msg D)} (h : OneBlock E l') (hll : l ⊆ l') :
    OneBlock E l :=
  fun p p' hp hp' => h p p' (hll hp) (hll hp')

theorem NoZeroQc.mono {E : Env D} {l l' : List (Msg D)} (h : NoZeroQc E l') (hll : l ⊆ l') :
    NoZeroQc E l :=
  ⟨fun p qc hp => h.1 p qc (hll hp), fun fv qc hf => h.2 fv qc (hll hf)⟩

theorem NoZeroVote.mono {E : Env D} {l l' : List (Msg D)} (h : NoZeroVote E l') (hll : l ⊆ l') :
    NoZeroVote E l :=
  fun v hv => h v (hll hv)

theorem noZeroVote_of_voted {E : Env D} {l : List (Msg D)}
    (h : ∀ m ∈ l, m.voted ≠ some E.zero) : NoZeroVote E l :=
  fun v hv hz => h (.vote v) hv (congrArg some hz)

namespace Conducts

variable {E : Env D} {docG : Bool} {spawn : Msg D → List (Key × J)}
  {step : NodeID → Key → SPB D → J → SPB D → List J → List (NodeOut D) → Prop}
  {second : Node D J → NodeID → ℤ → Bool} {M : Machine NodeID (Node D J) (Msg D) Act (Event D)}
  {G : Machine.Guard NodeID (Node D J) (Msg D) Act (Event D)} {self : NodeID}
  {h h' : NodeHost D J} (hM : Conducts E docG spawn step second M)
include hM

theorem hash_kept (self : NodeID) {x : Pool Key (SPB D) J (Msg D) (NodeOut D)}
    (hx : (freeCode E spawn (step self)).Run x) (hone : OneBlock E x.received) {k : Key} {j : J}
    {s' : SPB D} {js : List J} {os : List (NodeOut D)} (hj : (k, j) ∈ x.tasks)
    (hs : step self k (x.inst k) j s' js os) {height : ℕ} (hh : height ≤ HEIGHT_2)
    (hz : (x.inst k).blockHash height ≠ E.zero) :
    s'.blockHash height = (x.inst k).blockHash height := by
  rcases hM.rehash _ x hx k j s' js os hj hs height with he | ⟨p, hp, hk, hph, he⟩
  · exact he
  · rcases hM.recorded _ x hx k height hh with h0 | ⟨p', hp', hk', hph', he'⟩
    · exact absurd h0 hz
    · obtain ⟨hv, ha⟩ := Prod.mk.inj (hk.symm.trans hk')
      rw [he, he', hone p p' hp hp' hv ha (hph.trans hph'.symm)]

theorem step_hash (hl : M.Local G self h) (hs : M.LocalStep G self h h')
    (hone : OneBlock E (h'.received.filter (Msg.passes E docG))) {k : Key} {height : ℕ}
    (hh : height ≤ HEIGHT_2) (hz : (h.st.spbInstances k).blockHash height ≠ E.zero) :
    (h'.st.spbInstances k).blockHash height = (h.st.spbInstances k).blockHash height := by
  rcases hM.step_spb hs k with he | ⟨i, j, js, os, -, hi, hstep⟩
  · rw [he]
  · have hpre := Machine.LocalSteps.received_prefix (Relation.ReflTransGen.single hs)
    exact hM.hash_kept _ (hM.run hl) (hone.mono (hpre.filter _).subset) (List.mem_of_getElem? hi)
      hstep hh hz

end Conducts

/-! ## The lean protocol -/

namespace Core

variable {E : Env D} {self : NodeID}

/-- The certificate of the message that a task works on. -/
def SpbJob.cert : SpbJob D → Option (BlockQC D)
  | .propose p => if p.height = HEIGHT_2 then p.b.qc else none
  | .finVote fv => fv.qc
  | _ => none

/-- A new certificate is that of the message, and it names the recorded hash. -/
theorem JobStep.certify {k : Key} {s s' : SPB D} {j : SpbJob D} {js : List (SpbJob D)}
    {os : List (NodeOut D)} (h : JobStep E self k s j s' js os) {height : ℕ} {qc : BlockQC D}
    (hq : s'.blockQcs height = some qc) :
    s.blockQcs height = some qc ∨
      (SpbJob.cert j = some qc ∧ s'.blockHash height = qc.parentBlockHash) := by
  cases h with
  | proposeSecond p qc' hp hqc heq =>
    by_cases hh : height = HEIGHT_1
    · subst hh
      obtain rfl : qc' = qc := by simpa using hq
      exact Or.inr ⟨by simp [SpbJob.cert, hp, hqc], by simpa using heq⟩
    · exact Or.inl (by simpa [hh] using hq)
  | finAccept fv qc' ha hv hqc heq =>
    by_cases hh : height = HEIGHT_2
    · subst hh
      obtain rfl : qc' = qc := by simpa using hq
      exact Or.inr ⟨hqc, heq⟩
    · exact Or.inl (by simpa [hh] using hq)
  | _ => exact Or.inl hq

theorem cert_ne_zero {l : List (Msg D)} (hz : NoZeroQc E l) {k : Key} {j : SpbJob D}
    (hj : Handed l k j) {qc : BlockQC D} (hq : SpbJob.cert j = some qc) :
    qc.parentBlockHash ≠ E.zero := by
  cases j with
  | propose p =>
    simp only [SpbJob.cert] at hq
    split at hq
    · next hp => exact hz.1 p qc hj.1 hp hq
    · cases hq
  | finVote fv => exact hz.2 fv qc hj.1 hq
  | _ => cases hq

/-- **The certificates fit** where a slot has one block and no certificate names the zero digest. -/
theorem fits {x : Pool Key (SPB D) (SpbJob D) (Msg D) (NodeOut D)}
    (hx : (freeCode E spawn (JobStep E self)).Run x)
    (hr : OneBlock E x.received ∧ NoZeroQc E x.received) (k : Key) : (x.inst k).Fits E := by
  refine hx.inst_induction (R := fun l => OneBlock E l ∧ NoZeroQc E l)
    (B := fun _ s => s.Fits E)
    (fun l m h => ⟨h.1.mono (List.subset_append_left _ _), h.2.mono (List.subset_append_left _ _)⟩)
    (fun _ _ _ hq => by cases hq) ?_ hr k
  intro x hx hr k j s' js os hj hs hfits height qc hq
  rcases hs.certify hq with hq' | ⟨hc, he⟩
  · obtain ⟨he, hne⟩ := hfits height qc hq'
    have hle : height ≤ HEIGHT_2 := by
      by_contra hlt
      have := ((held_of_run hx).2 k).above height (not_le.1 hlt)
      exact absurd (hq'.symm.trans this) (by simp)
    exact ⟨((conducts E).hash_kept self hx hr.1 hj hs hle (he ▸ hne)).trans he, hne⟩
  · exact ⟨he, cert_ne_zero hr.2 ((held_of_run hx).1 _ hj) hc⟩

end Core

/-! ## The big protocols -/

namespace BigSPB

variable {E : Env D} {self : NodeID} {V : Rules D} {docG : Bool}
  {second : BigNode D → NodeID → ℤ → Bool} {M : NodeMachine D (BigJob D)}
  {x : Pool Key (SPB D) (BigJob D) (Msg D) (NodeOut D)}

/-- A vote goes on to the counter where its hash is found right, and from there to the certificate. -/
theorem JobStep.counts {k : Key} {s s' : SPB D} {j j' : BigJob D} {js : List (BigJob D)}
    {os : List (NodeOut D)} (h : JobStep E self V k s j s' js os) (hj' : j' ∈ js) {v : VoteMsg D}
    (hv : j' = .count v ∨ j' = .quorum v) :
    (v.height ≤ HEIGHT_2 ∧ s'.blockHash v.height = v.blockHash) ∨ j = .count v := by
  cases h with
  | vote w hle heq =>
    rw [List.mem_singleton.1 hj'] at hv
    rcases hv with hv | hv
    · cases hv
      exact Or.inl ⟨hle, heq⟩
    · cases hv
  | count w =>
    split at hj'
    · rw [List.mem_singleton.1 hj'] at hv
      rcases hv with hv | hv
      · cases hv
      · cases hv
        exact Or.inr rfl
    · exact absurd hj' List.not_mem_nil
  | replay p =>
    rcases mem_waiting hj' with ⟨-, p', -, rfl⟩ | ⟨-, w, -, rfl⟩ <;> simp at hv
  | quorumFirst w _ =>
    rcases V.next_cases self k w j' hj' with rfl | ⟨rfl, -⟩ <;> simp at hv
  | replaySpeed =>
    obtain ⟨sv, -, rfl⟩ := List.mem_map.1 hj'
    simp at hv
  | speedCount =>
    split at hj'
    · rw [List.mem_singleton.1 hj'] at hv
      simp at hv
    · exact absurd hj' List.not_mem_nil
  | _ => simp_all

theorem counted_hash
    (hM : Conducts E docG (spawn V) (fun i => JobStep E i V) second M)
    (hx : (freeCode E (spawn V) (JobStep E self V)).Run x) (hone : OneBlock E x.received) {k : Key}
    {v : VoteMsg D} (hv : v.blockHash ≠ E.zero)
    (hj : (k, .count v) ∈ x.tasks ∨ (k, .quorum v) ∈ x.tasks) :
    (x.inst k).blockHash v.height = v.blockHash := by
  refine hx.witnessed (R := OneBlock E) (fun l m h => h.mono (List.subset_append_left _ _)) k
    (G := fun s => s.blockHash v.height = v.blockHash ∧ v.height ≤ HEIGHT_2)
    (Q := fun j => j = .count v ∨ j = .quorum v) (O := fun _ => False) ?_ (fun _ _ => id) ?_ ?_
    (fun _ _ _ _ _ _ _ _ _ _ _ _ _ => id) hone
    (Or.inl (hj.elim (fun h => ⟨_, h, Or.inl rfl⟩) fun h => ⟨_, h, Or.inr rfl⟩)) |>.1
  · intro l m j _ hm hq
    cases m <;> simp_all [freeCode, spawn]
  · intro x hx hone j s' js os hj hs hg
    have hkept := hM.hash_kept self hx hone hj hs hg.2 (hg.1 ▸ hv)
    exact ⟨hkept.trans hg.1, hg.2⟩
  · intro x hx _ j s' js os hj hs hnew
    obtain ⟨j', hj', hq⟩ := hnew.resolve_right (by simp)
    rcases hs.counts hj' hq with ⟨hle, heq⟩ | rfl
    · exact Or.inl ⟨heq, hle⟩
    · exact Or.inr (Or.inl rfl)

theorem JobStep.certify {k : Key} {s s' : SPB D} {j : BigJob D} {js : List (BigJob D)}
    {os : List (NodeOut D)} (h : JobStep E self V k s j s' js os) {height : ℕ} {qc : BlockQC D}
    (hq : s'.blockQcs height = some qc) :
    s.blockQcs height = some qc ∨ ∃ v, j = .quorum v ∧ v.height = height ∧
      qc.parentBlockHash = v.blockHash ∧ s'.blockHash = s.blockHash := by
  have hnew (v : VoteMsg D) (hq : Function.update s.blockQcs v.height (some (v.makeQC k)) height =
      some qc) : s.blockQcs height = some qc ∨
        v.height = height ∧ qc.parentBlockHash = v.blockHash := by
    by_cases hh : height = v.height
    · subst hh
      obtain rfl : v.makeQC k = qc := by simpa using hq
      exact Or.inr ⟨rfl, rfl⟩
    · exact Or.inl (by simpa [hh] using hq)
  cases h with
  | quorumFirst v _ => exact (hnew v hq).imp_right fun ⟨h₁, h₂⟩ => ⟨v, rfl, h₁, h₂, rfl⟩
  | quorumSecond v _ => exact (hnew v hq).imp_right fun ⟨h₁, h₂⟩ => ⟨v, rfl, h₁, h₂, rfl⟩
  | quorumOther v _ _ => exact (hnew v hq).imp_right fun ⟨h₁, h₂⟩ => ⟨v, rfl, h₁, h₂, rfl⟩
  | _ => exact Or.inl hq

/-- **A certificate names a block that was accepted** for the instance and the height, or the zero
digest: the vote that completes it was found right against the hash recorded then. -/
theorem recorded_of_certificate (hx : (freeCode E (spawn V) (JobStep E self V)).Run x) {k : Key}
    {height : ℕ} {qc : BlockQC D} (hq : (x.inst k).blockQcs height = some qc) :
    Turns.Recorded E x.received k height qc.parentBlockHash := by
  have hsourced := hx.sourced (R := fun _ => True) (fun _ _ _ => trivial)
    (T := fun l k j => Handed self V l k j ∧
      ∀ v, j = .count v ∨ j = .quorum v → Turns.Recorded E l k v.height v.blockHash)
    (B := fun l k s => Held E V l k s ∧ ∀ height qc, s.blockQcs height = some qc →
      Turns.Recorded E l k height qc.parentBlockHash) (O := fun _ _ => True)
    (fun _ m _ _ h => ⟨h.1.mono m, fun v hv => (h.2 v hv).mono (List.prefix_append _ _)⟩)
    (fun _ m _ _ h => ⟨h.1.mono m, fun height qc hq => (h.2 height qc hq).mono
      (List.prefix_append _ _)⟩) (fun _ _ _ _ => trivial)
    (fun k => ⟨held_new k, fun _ _ hq => by cases hq⟩) ?_ (fun _ _ _ => trivial) ?_ trivial
  · exact (hsourced.2.1 k).2 height qc hq
  · intro l m t _ ht
    refine ⟨handed_spawn ht, fun v hv => ?_⟩
    cases m <;> simp_all [freeCode, spawn]
  · intro l k s j s' js os _ hj hs h
    obtain ⟨hjs, hs', -⟩ := jobStep_sourced hj.1 hs.1 h
    refine ⟨fun j' hj' => ⟨hjs j' hj', fun v hv => ?_⟩, ⟨hs', fun height qc hq => ?_⟩,
      fun _ _ => trivial⟩
    · rcases h.counts hj' hv with ⟨hle, heq⟩ | rfl
      · rw [← heq]
        exact hs'.recorded hle
      · exact hj.2 v (Or.inl rfl)
    · rcases h.certify hq with hq | ⟨v, rfl, rfl, he, -⟩
      · exact hs.2 height qc hq
      · rw [he]
        exact hj.2 v (Or.inr rfl)

/-- Where no vote names the zero digest, there is a block behind every certificate. -/
theorem accepted_of_certificate (hx : (freeCode E (spawn V) (JobStep E self V)).Run x)
    (hz : NoZeroVote E x.received) {k : Key} {height : ℕ} {qc : BlockQC D}
    (hq : (x.inst k).blockQcs height = some qc) :
    ∃ p, Msg.propose p ∈ x.received ∧ k = (p.view, p.author) ∧ p.height = height ∧
      qc.parentBlockHash = p.b.hash E := by
  rcases recorded_of_certificate hx hq with hzero | hp
  · obtain ⟨-, v, hv, -, -, rfl⟩ := ((held_of_run hx).2 k).blockQcs height qc hq
    exact absurd hzero (hz v hv)
  · exact hp

/-- **The certificates fit** where a slot has one block and no vote names the zero digest. -/
theorem fits (hM : Conducts E docG (spawn V) (fun i => JobStep E i V) second M)
    (hx : (freeCode E (spawn V) (JobStep E self V)).Run x)
    (hr : OneBlock E x.received ∧ NoZeroVote E x.received) (k : Key) : (x.inst k).Fits E := by
  refine hx.inst_induction (R := fun l => OneBlock E l ∧ NoZeroVote E l)
    (B := fun _ s => s.Fits E)
    (fun l m h => ⟨h.1.mono (List.subset_append_left _ _), h.2.mono (List.subset_append_left _ _)⟩)
    (fun _ _ _ hq => by cases hq) ?_ hr k
  intro x hx hr k j s' js os hj hs hfits height qc hq
  rcases hs.certify hq with hq' | ⟨v, rfl, rfl, he, hsame⟩
  · obtain ⟨he, hne⟩ := hfits height qc hq'
    have hle := (((held_of_run hx).2 k).blockQcs height qc hq').1
    exact ⟨(hM.hash_kept self hx hr.1 hj hs hle (he ▸ hne)).trans he, hne⟩
  · have hv : v.blockHash ≠ E.zero := hr.2 v ((held_of_run hx).1 _ hj).1
    rw [he, hsame]
    exact ⟨counted_hash hM hx hr.1 hv (Or.inr hj), hv⟩

end BigSPB

/-! ## What `DecCert()` says -/

/-- Where `DecCert()` is true, the certificate of each height is the one of the recorded block, and the
block is in the store. -/
def CertificatesMatch (E : Env D) (c : Node D J) : Prop :=
  ∀ k, (c.spbInstances k).decCert = true → ∀ height, height ≤ HEIGHT_2 → ∃ qc b,
    (c.spbInstances k).blockQcs height = some qc ∧
      (c.spbInstances k).blockHash height = qc.parentBlockHash ∧
      getBlock c.store ((c.spbInstances k).blockHash height) = some b ∧
      b.hash E = qc.parentBlockHash

/-- What the branch of `DecCert()` has handed to `Commit` is the certified block. -/
def CommitsCertified (E : Env D) (h : NodeHost D J) : Prop :=
  ∀ leader view b, Out.event (.handed leader view HEIGHT_1 b) ∈ h.outs → ∃ qc,
    (h.st.spbInstances (view, leader)).blockQcs HEIGHT_1 = some qc ∧
      b.hash E = qc.parentBlockHash

theorem SPB.decCert_some {s : SPB D} (h : s.decCert = true) {height : ℕ} (hh : height ≤ HEIGHT_2) :
    ∃ qc, s.blockQcs height = some qc := by
  simp only [SPB.decCert, Bool.and_eq_true, Option.isSome_iff_exists] at h
  rcases height_cases hh with rfl | rfl
  · exact h.1
  · exact h.2

namespace Conducts

variable {E : Env D} {docG : Bool} {spawn : Msg D → List (Key × J)}
  {step : NodeID → Key → SPB D → J → SPB D → List J → List (NodeOut D) → Prop}
  {second : Node D J → NodeID → ℤ → Bool} {M : Machine NodeID (Node D J) (Msg D) Act (Event D)}
  {G : Machine.Guard NodeID (Node D J) (Msg D) Act (Event D)} {self : NodeID}
  {h : NodeHost D J} (hM : Conducts E docG spawn step second M)
include hM

theorem certificatesMatch (hl : M.Local G self h) (hfits : ∀ k, (h.st.spbInstances k).Fits E) :
    CertificatesMatch E h.st := by
  intro k hdec height hh
  obtain ⟨qc, hqc⟩ := SPB.decCert_some hdec hh
  obtain ⟨he, hne⟩ := hfits k height qc hqc
  obtain ⟨b, hb, hbh⟩ := hM.resolves hl hh (he ▸ hne)
  exact ⟨qc, b, hqc, he, hb, hbh.trans he⟩

/-- Where the second test of `processCoin` is `DecCert()`, it hands over the certified block. -/
theorem commitsCertified
    (hsecond : ∀ c leader view, second c leader view = true →
      (c.spbInstances (view, leader)).decCert = true)
    {R : List (Msg D) → Prop} (hR : ∀ l l', l ⊆ l' → R l' → R l) (hone : ∀ l, R l → OneBlock E l)
    (hfits : ∀ h, M.Local G self h → R (h.received.filter (Msg.passes E docG)) →
      ∀ k, (h.st.spbInstances k).Fits E)
    (hl : M.Local G self h) (hr : R (h.received.filter (Msg.passes E docG))) :
    CommitsCertified E h := by
  -- from the test on the hash of height 1 stays the one that the certificate names
  have hhanded := (hM.handed_induction
    (R := fun l => R (l.filter (Msg.passes E docG)))
    (fun l l' hll hr => hR _ _ (hll.filter _).subset hr)
    (Q := fun c leader view height => height = HEIGHT_1 →
      (c.spbInstances (view, leader)).decCert = true)
    (P := fun c leader view height b => height = HEIGHT_1 →
      (c.spbInstances (view, leader)).decCert = true ∧
        b.hash E = (c.spbInstances (view, leader)).blockHash HEIGHT_1)
    (fun _ _ _ _ hh => by cases hh) (fun c leader view hsec _ => hsecond c leader view hsec)
    (fun h hl _ leader view height b hq hb hh => ⟨hq hh, hh ▸ (hM.stored_source hl hb).1⟩)
    (fun h h' _ hs _ leader view height hq hh => (hM.step_grows hs _).decCert (hq hh))
    (fun h h' hl hs hr leader view height b hp hh => ?_) hl hr).1
  · intro leader view b hb
    obtain ⟨hdec, hbh⟩ := hhanded _ _ _ _ hb rfl
    obtain ⟨qc, hqc⟩ := SPB.decCert_some hdec (Nat.zero_le _)
    exact ⟨qc, hqc, hbh.trans (hfits h hl hr _ _ _ hqc).1⟩
  · obtain ⟨hdec, hbh⟩ := hp hh
    obtain ⟨qc, hqc⟩ := SPB.decCert_some hdec (Nat.zero_le _)
    have hpre := Machine.LocalSteps.received_prefix (Relation.ReflTransGen.single hs)
    have hr₀ := hR _ _ (hpre.filter _).subset hr
    obtain ⟨he, hne⟩ := hfits h hl hr₀ _ _ _ hqc
    exact ⟨(hM.step_grows hs _).decCert hdec,
      hbh.trans (hM.step_hash hl hs (hone _ hr) (Nat.zero_le _) (he ▸ hne)).symm⟩

end Conducts

/-- **Certificates match the recorded blocks** where a slot has one accepted block and nobody names the
zero digest, for the instances of the three protocols; and the two that ask for `DecCert()` then commit
the certified block. -/
theorem certificates_match (E : Env D) :
    (∀ self h, (Core.machine E).Local Machine.anyInput self h →
      OneBlock E (h.received.filter (Msg.passes E true)) →
      NoZeroQc E (h.received.filter (Msg.passes E true)) →
      CertificatesMatch E h.st ∧ CommitsCertified E h) ∧
    (∀ self h, (BigCore.machine E).Local Machine.anyInput self h →
      OneBlock E (h.received.filter (Msg.passes E false)) →
      NoZeroVote E (h.received.filter (Msg.passes E false)) →
      CertificatesMatch E h.st ∧ CommitsCertified E h) ∧
    ∀ self h, (DAGBigCore.machine E).Local Machine.anyInput self h →
      OneBlock E (h.received.filter (Msg.passes E true)) →
      NoZeroVote E (h.received.filter (Msg.passes E true)) → CertificatesMatch E h.st := by
  refine ⟨fun self h hl h₁ h₂ => ?_, fun self h hl h₁ h₂ => ?_, fun self h hl h₁ h₂ => ?_⟩
  · have hM := Core.conducts E
    have hfits : ∀ h, (Core.machine E).Local Machine.anyInput self h →
        OneBlock E (h.received.filter (Msg.passes E true)) ∧
          NoZeroQc E (h.received.filter (Msg.passes E true)) → ∀ k, (h.st.spbInstances k).Fits E :=
      fun h hl hr => Core.fits (hM.run hl) hr
    exact ⟨hM.certificatesMatch hl (hfits h hl ⟨h₁, h₂⟩),
      hM.commitsCertified (R := fun l => OneBlock E l ∧ NoZeroQc E l) (fun _ _ _ hs => hs)
        (fun _ _ hll hr => ⟨hr.1.mono hll, hr.2.mono hll⟩) (fun _ hr => hr.1) hfits hl ⟨h₁, h₂⟩⟩
  · have hM := BigCore.conducts E
    have hfits : ∀ h, (BigCore.machine E).Local Machine.anyInput self h →
        OneBlock E (h.received.filter (Msg.passes E false)) ∧
          NoZeroVote E (h.received.filter (Msg.passes E false)) →
          ∀ k, (h.st.spbInstances k).Fits E :=
      fun h hl hr => BigSPB.fits hM (hM.run hl) hr
    exact ⟨hM.certificatesMatch hl (hfits h hl ⟨h₁, h₂⟩),
      hM.commitsCertified (R := fun l => OneBlock E l ∧ NoZeroVote E l) (fun _ _ _ hs => hs)
        (fun _ _ hll hr => ⟨hr.1.mono hll, hr.2.mono hll⟩) (fun _ hr => hr.1) hfits hl ⟨h₁, h₂⟩⟩
  · have hM := DAGBigCore.conducts E
    exact hM.certificatesMatch hl (BigSPB.fits hM (hM.run hl) ⟨h₁, h₂⟩)

namespace Overwritten

/-- Another height-1 block of node 1 for view 0, with a batch of transactions. -/
def other : Block ℕ := ⟨1, 0, HEIGHT_1, ⟨7, []⟩, none, []⟩

/-- The two proposals of node 1 and its final vote, and then, if it says so, the other height-1 proposal;
last the coin that names node 1. -/
def inputs (twice : Bool) : List (Input (Msg ℕ) Act) :=
  (Mislabelled.inputs 0).take 9 ++
    (if twice then [.recv (Mislabelled.envelope HEIGHT_1 other), .act (.task 0)] else []) ++
    (Mislabelled.inputs 0).drop 9

def run (twice : Bool) : NodeHost ℕ (SpbJob ℕ) :=
  (Core.machine (Env.plain 4 fun _ => 1)).feed Machine.anyInput 0
    ((Core.machine (Env.plain 4 fun _ => 1)).start 0) (inputs twice)

theorem run_local (twice : Bool) :
    (Core.machine (Env.plain 4 fun _ => 1)).Local Machine.anyInput 0 (run twice) :=
  Machine.Local.start.steps (Machine.feed_sound _ _ _)

/-- The certificate in a message. -/
def link : Msg ℕ → Option (BlockQC ℕ)
  | .propose p => p.b.qc
  | .finVote fv => fv.qc
  | _ => none

end Overwritten

theorem certificates_match_four :
    ((Overwritten.run false).st.spbInstances (0, 1)).decCert = true ∧
      CertificatesMatch (Env.plain 4 fun _ => 1) (Overwritten.run false).st := by
  refine ⟨by decide +kernel, ((certificates_match _).1 0 _ (Overwritten.run_local false) ?_ ?_).1⟩
  · have hone : ∀ p ∈ proposed ((Overwritten.run false).received.filter
        (Msg.passes (Env.plain 4 fun _ => 1) true)),
        ∀ p' ∈ proposed ((Overwritten.run false).received.filter
          (Msg.passes (Env.plain 4 fun _ => 1) true)), p.height = p'.height →
        p.b.hash (Env.plain 4 fun _ => 1) = p'.b.hash (Env.plain 4 fun _ => 1) := by
      decide +kernel
    exact fun p p' hp hp' _ _ hh => hone p (mem_proposed hp) p' (mem_proposed hp') hh
  · have hne : ∀ m ∈ (Overwritten.run false).received,
        (Overwritten.link m).map (·.parentBlockHash) ≠ some (Env.plain 4 fun _ => 1).zero := by
      decide +kernel
    have hzero {m : Msg ℕ} {qc : BlockQC ℕ} (hq : Overwritten.link m = some qc)
        (hm : m ∈ (Overwritten.run false).received.filter
          (Msg.passes (Env.plain 4 fun _ => 1) true)) :
        qc.parentBlockHash ≠ (Env.plain 4 fun _ => 1).zero := by
      have := hne m (List.mem_of_mem_filter hm)
      rw [hq] at this
      exact fun h => this (congrArg some h)
    exact ⟨fun p qc hp _ hq => hzero (m := .propose p) hq hp,
      fun fv qc hf hq => hzero (m := .finVote fv) hq hf⟩

/-- **A certified height is overwritten**: the certificates are those of the two proposals, `DecCert()`
is true, and `processCoin(1, 0)` commits the other block. -/
theorem certificate_overwritten :
    (Core.machine (Env.plain 4 fun _ => 1)).Local Machine.anyInput 0 (Overwritten.run true) ∧
      (∀ m ∈ (Overwritten.run true).received, m.passes (Env.plain 4 fun _ => 1) true = true) ∧
      ((Overwritten.run true).st.spbInstances (0, 1)).decCert = true ∧
      (((Overwritten.run true).st.spbInstances (0, 1)).blockQcs HEIGHT_1).map (·.parentBlockHash) =
        some ((Mislabelled.first 0).hash (Env.plain 4 fun _ => 1)) ∧
      ((Overwritten.run true).st.spbInstances (0, 1)).blockHash HEIGHT_1 =
        Overwritten.other.hash (Env.plain 4 fun _ => 1) ∧
      Overwritten.other.hash (Env.plain 4 fun _ => 1) ≠
        (Mislabelled.first 0).hash (Env.plain 4 fun _ => 1) ∧
      Out.event (.handed 1 0 HEIGHT_1 Overwritten.other) ∈ (Overwritten.run true).outs :=
  ⟨Overwritten.run_local true, by decide +kernel, by decide +kernel, by decide +kernel,
    by decide +kernel, by decide +kernel, mem_of_handedBlock (by decide +kernel)⟩

end S2Pac
