import S2Pac.Lib.Pool
import Mathlib.Data.Nat.Cast.Basic

/-!
# The tasks of one key, with a log

A pool where every message becomes a task of one key. What is put out is a log: an entry is a task that
took a step, with what the step put out (`PoolCode.logged`). `Guarded` says what the messages, the tasks and
the state are made of and that steps hand it on; under it

* `Guarded.fits`: it holds of all tasks, of the state and of all that is in the log;
* `Guarded.witnessed`: entries that are only made where the state is right;
* `Guarded.books`: where each message is;
* `acc_of_falls`: steps that lower a measure come to an end.
-/

namespace S2Pac.Lib

variable {κ τ J ο : Type}

theorem countP_map_const {α : Type*} {l : List α} {f : α → J} {Q : J → Bool} {r : Bool}
    (h : ∀ a ∈ l, Q (f a) = r) : (l.map f).countP Q = r.toNat * l.length := by
  rw [List.countP_map]
  cases r with
  | true => simpa using List.countP_eq_length.2 h
  | false => simpa using List.countP_eq_zero.2 fun a ha => by simp [h a ha]

theorem perm_pair {α : Type*} {l : List α} {P : α → Bool} {a b : α}
    (ha : ∀ y ∈ l, P y = true → y = a) (hb : ∀ y ∈ l, P y = false → y = b) (h₁ : l.countP P = 1)
    (h₂ : l.countP (fun y => !P y) = 1) : l.Perm [a, b] := by
  have hone : ∀ (Q : α → Bool) (c : α), (∀ y ∈ l, Q y = true → y = c) → l.countP Q = 1 →
      l.filter Q = [c] := by
    intro Q c hc h
    rw [List.countP_eq_length_filter] at h
    obtain ⟨d, hd⟩ := List.length_eq_one_iff.1 h
    have hmem : d ∈ l.filter Q := hd ▸ List.mem_singleton_self d
    rw [hd, hc d (List.mem_filter.1 hmem).1 (List.mem_filter.1 hmem).2]
  have h := List.filter_append_perm P l
  rw [hone P a ha h₁, hone (fun y => !P y) b (fun y hy hQ => hb y hy (by simpa using hQ)) h₂] at h
  exact h.symm

/-- An entry for a task that satisfies `Q`. -/
def entryOf (Q : J → Bool) (e : J × List ο) : Bool := Q e.1

theorem countP_entryOf_append (Q : J → Bool) (log : List (J × List ο)) (j : J) (os : List ο) :
    (log ++ [(j, os)]).countP (entryOf Q) = log.countP (entryOf Q) + if Q j then 1 else 0 := by
  rw [List.countP_append, List.countP_singleton]
  rfl

/-- What is put out with the entries that satisfy `O`, one with each, and with no other. -/
theorem countP_flatMap_log {P : ο → Bool} {O : J × List ο → Bool} {log : List (J × List ο)}
    (h : ∀ e ∈ log, e.2.countP P = if O e then 1 else 0) :
    (log.flatMap Prod.snd).countP P = log.countP O := by
  induction log with
  | nil => rfl
  | cons e log ih =>
    have ih := ih fun e he => h e (List.mem_cons_of_mem _ he)
    rw [List.flatMap_cons, List.countP_append, ih, h e (by simp), List.countP_cons, Nat.add_comm]

theorem filter_flatMap_log {α : Type*} {P : ο → Bool} {f : J × List ο → Option α} {g : α → ο}
    {log : List (J × List ο)} (h : ∀ e ∈ log, e.2.filter P = (f e).toList.map g) :
    (log.flatMap Prod.snd).filter P = (log.filterMap f).map g := by
  induction log with
  | nil => rfl
  | cons e log ih =>
    have ih := ih fun e he => h e (List.mem_cons_of_mem _ he)
    rw [List.flatMap_cons, List.filter_append, ih, h e (by simp), List.filterMap_cons]
    cases f e <;> simp

/-- The tasks of key `k`, with a log. -/
def PoolCode.logged (init : τ) (step : κ → τ → J → τ → List J → List ο → Prop) (k : κ) :
    PoolCode κ τ J J (J × List ο) where
  init := init
  spawn := fun j => [(k, j)]
  step := fun k s j s' js log => ∃ os, step k s j s' js os ∧ log = [(j, os)]
  other := fun _ => False

/-- Properties of what comes in, of tasks and of states that steps hand on. -/
structure Guarded (init : τ) (step : κ → τ → J → τ → List J → List ο → Prop) (k : κ)
    (R : List J → Prop) (T : J → Prop) (B : τ → Prop) : Prop where
  earlier : ∀ l j, R (l ++ [j]) → R l
  comes : ∀ l, R l → ∀ j ∈ l, T j
  start : B init
  keeps : ∀ s j s' js os, T j → B s → step k s j s' js os → (∀ j' ∈ js, T j') ∧ B s'

section Logged

variable {init : τ} {step : κ → τ → J → τ → List J → List ο → Prop} {k : κ} {R : List J → Prop}
  {T : J → Prop} {B : τ → Prop} {x : Pool κ τ J J (J × List ο)}

theorem logged_key (m : J) : ∀ t ∈ (PoolCode.logged init step k).spawn m, t.1 = k := by
  simp [PoolCode.logged]

variable [DecidableEq κ]

theorem Guarded.fits (hg : Guarded init step k R T B) (hx : (PoolCode.logged init step k).Run x)
    (hr : R x.received) : (∀ j, (k, j) ∈ x.tasks → T j) ∧ B (x.inst k) ∧
      ∀ e ∈ x.outs, T e.1 ∧ ∃ s s' js, step k s e.1 s' js e.2 := by
  have h := hx.sourced (R := R) hg.earlier (T := fun _ k' j => k' = k ∧ T j)
    (B := fun _ k' s => k' = k → B s) (O := fun _ e => T e.1 ∧ ∃ s s' js, step k s e.1 s' js e.2)
    (fun _ _ _ _ h => h) (fun _ _ _ _ h => h) ?_ (fun _ _ => hg.start) ?_
    (fun _ _ h => False.elim h) ?_ hr
  · exact ⟨fun j hj => (h.1 _ hj).2, h.2.1 k rfl, h.2.2⟩
  · exact fun _ _ _ h => h
  · intro l m t hl ht
    rw [List.mem_singleton.1 ht]
    exact ⟨rfl, hg.comes _ hl m (by simp)⟩
  · rintro l k' s j s' js log - ⟨rfl, hj⟩ hs ⟨os, hstep, rfl⟩
    obtain ⟨hjs, hs'⟩ := hg.keeps s j s' js os hj (hs rfl) hstep
    refine ⟨fun j' hj' => ⟨rfl, hjs j' hj'⟩, fun _ => hs', fun e he => ?_⟩
    rw [List.mem_singleton.1 he]
    exact ⟨hj, s, s', js, hstep⟩

/-- **Entries that are only made where the state is right**, by a step that leaves it right or by one of
the tasks `Q`, which are only started where it is. -/
theorem Guarded.witnessed (hg : Guarded init step k R T B) {G : τ → Prop} {Q : J → Bool}
    {O : J × List ο → Bool} (hmsg : ∀ l, R l → ∀ j ∈ l, Q j = false)
    (hkeep : ∀ s j s' js os, T j → step k s j s' js os → G s → G s')
    (hnew : ∀ s j s' js os, T j → step k s j s' js os →
      ((∃ j' ∈ js, Q j' = true) ∨ O (j, os) = true) → G s' ∨ Q j = true)
    (hx : (PoolCode.logged init step k).Run x) (hr : R x.received)
    (h : ∃ e ∈ x.outs, O e = true) : G (x.inst k) := by
  refine hx.witnessed (R := R) hg.earlier k (G := G) (Q := fun j => Q j = true)
    (O := fun e => O e = true) ?_ (fun _ h _ => h) ?_ ?_ ?_ hr (Or.inr h)
  · intro l m j hl hj hq
    obtain ⟨-, rfl⟩ := Prod.mk.inj (List.mem_singleton.1 hj)
    rw [hmsg _ hl j (by simp)] at hq
    cases hq
  · rintro x hx hr j s' js log hj ⟨os, hstep, -⟩ hs
    exact hkeep _ _ _ _ _ ((hg.fits hx hr).1 j hj) hstep hs
  · rintro x hx hr j s' js log hj ⟨os, hstep, rfl⟩ hq
    refine hnew _ _ _ _ _ ((hg.fits hx hr).1 j hj) hstep (hq.imp_right ?_)
    rintro ⟨e, he, ho⟩
    rwa [List.mem_singleton.1 he] at ho
  · intro x hx hr k' j s' js log hne hj _
    exact absurd (hx.key logged_key _ hj) hne

/-- **The books.** A message is taken up by the state, with a task or in the log, when every step keeps
that. -/
theorem Guarded.books (hg : Guarded init step k R T B) {W : List (J × List ο) → τ → ℕ} {K : τ → ℕ}
    {Q P : J → Bool} {O : J × List ο → Bool} (hinit : W [] init = K init)
    (hP : ∀ l, R l → ∀ j ∈ l, Q j = P j)
    (hstep : ∀ x, (PoolCode.logged init step k).Serves x → R x.received →
      ∀ j s' js os, (k, j) ∈ x.tasks → T j → B (x.inst k) → step k (x.inst k) j s' js os →
      W x.outs (x.inst k) + pending x.tasks k Q + x.outs.countP O =
        x.received.countP P + K (x.inst k) →
      W (x.outs ++ [(j, os)]) s' + js.countP Q + (if O (j, os) then 1 else 0) + K (x.inst k) =
        W x.outs (x.inst k) + (if Q j then 1 else 0) + K s')
    (hx : (PoolCode.logged init step k).Serves x) (hr : R x.received) :
    W x.outs (x.inst k) + pending x.tasks k Q + x.outs.countP O =
      x.received.countP P + K (x.inst k) := by
  refine hx.balance (R := R) hg.earlier logged_key hinit ?_ ?_ hr
  · intro l m hl
    have hm := hP _ hl m (by simp)
    simp [PoolCode.logged, pending, hm, List.countP_singleton]
  · rintro x hx hr j s' js log hj ⟨os, hs, rfl⟩ ih
    obtain ⟨hfits, hbuf, -⟩ := hg.fits hx.run hr
    rw [List.countP_singleton]
    exact hstep x hx hr j s' js os hj (hfits j hj) hbuf hs ih

end Logged

/-! ## Coming to rest -/

/-- The tasks weighed. -/
def load (w : J → ℕ) (ts : List (κ × J)) : ℕ := (ts.map fun t => w t.2).sum

theorem load_le {w w' : J → ℕ} (h : ∀ j, w j ≤ w' j) (ts : List (κ × J)) : load w ts ≤ load w' ts :=
  List.sum_le_sum fun _ _ => h _

theorem load_step (w : J → ℕ) {ts : List (κ × J)} {i : ℕ} {k : κ} {j : J}
    (hi : ts[i]? = some (k, j)) (js : List J) :
    load w (ts.eraseIdx i ++ js.map (k, ·)) + w j = load w ts + (js.map w).sum := by
  obtain ⟨hlt, he⟩ := List.getElem?_eq_some_iff.1 hi
  have hsum := ((List.getElem_cons_eraseIdx_perm hlt).map fun t => w t.2).sum_eq
  rw [List.map_cons, List.sum_cons, he] at hsum
  dsimp only at hsum
  have hjs : ((js.map fun j => (k, j)).map fun t : κ × J => w t.2) = js.map w := by
    rw [List.map_map]
    rfl
  simp only [load, List.map_append, List.sum_append, hjs]
  omega

/-- **Steps come to an end** when they are matched by steps that lower a measure. -/
theorem acc_of_falls {α β : Type*} {r : α → α → Prop} {M : α → β → Prop} {N : β → ℕ}
    (h : ∀ a a' b, M a b → r a a' → ∃ b', M a' b' ∧ N b' < N b) {a : α} {b : β}
    (hab : M a b) : Acc (fun a' a => r a a') a := by
  induction hn : N b using Nat.strong_induction_on generalizing a b with
  | _ n ih =>
    refine Acc.intro a fun a' ha' => ?_
    obtain ⟨b', hab', hlt⟩ := h a a' b hab ha'
    exact ih (N b') (hn ▸ hlt) hab' rfl

end S2Pac.Lib
