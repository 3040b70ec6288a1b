import S2Pac.Message

/-!
# What the hash of a block identifies

`Block.Hash` writes the author, the view, the height and the batch id in base 2, one after the other
and without separators. The bytes do not say where one number ends, so two blocks of honest nodes can
have the same bytes, whatever the size of the committee: `preimage_identifies`. They identify a block
exactly up to the lengths of the first two numerals.
-/

namespace S2Pac

/-! ## Numerals in base 2 -/

theorem appendInt_natCast (x : ℕ) :
    appendInt x = (Nat.toDigits 2 x).map fun c => UInt8.ofNat c.toNat := by
  have h : ¬ ((x : ℤ) < 0) := by omega
  simp [appendInt, h]

theorem appendInt_negSucc (x : ℕ) : appendInt (Int.negSucc x) = 45 :: appendInt (x + 1 : ℕ) := by
  rw [appendInt_natCast]
  have h : Int.negSucc x < 0 := by omega
  simp [appendInt, h]

theorem appendInt_snoc {x d : ℕ} (hx : 0 < x) (hd : d < 2) :
    appendInt x ++ appendInt d = appendInt (2 * x + d : ℕ) := by
  rw [appendInt_natCast, appendInt_natCast, appendInt_natCast,
    ← Nat.toDigits_append_toDigits (by omega) hx hd, List.map_append]

theorem appendInt_bit {d : ℕ} (hd : d < 2) : appendInt d = [UInt8.ofNat (48 + d)] := by
  rw [appendInt_natCast, Nat.toDigits_of_lt_base hd]
  obtain rfl | rfl : d = 0 ∨ d = 1 := by omega
  · rfl
  · rfl

/-- A numeral with another one written behind it is again a numeral. -/
theorem exists_appendInt_append {x : ℕ} (hx : 0 < x) (y : ℕ) :
    ∃ m : ℕ, x < m ∧ appendInt x ++ appendInt y = appendInt m := by
  induction y using Nat.strongRecOn with
  | ind y ih =>
    by_cases hy : y < 2
    · exact ⟨2 * x + y, by omega, appendInt_snoc hx hy⟩
    · obtain ⟨m, hm, he⟩ := ih (y / 2) (by omega)
      refine ⟨2 * m + y % 2, by omega, ?_⟩
      have hsplit : appendInt y = appendInt (y / 2 : ℕ) ++ appendInt (y % 2 : ℕ) := by
        rw [appendInt_snoc (by omega) (by omega), Nat.div_add_mod]
      rw [hsplit, ← List.append_assoc, he, appendInt_snoc (by omega) (by omega)]

theorem ofNat_toNat_digitByte {c : Char} (hc : c.isDigit = true) :
    Char.ofNat (UInt8.ofNat c.toNat).toNat = c := by
  simp only [Char.isDigit, Bool.and_eq_true, decide_eq_true_eq] at hc
  have hle : c.toNat ≤ 57 := hc.2
  rw [UInt8.toNat_ofNat_of_lt' (by simp only [UInt8.size]; omega), Char.ofNat_toNat]

theorem map_appendInt (x : ℕ) :
    (appendInt x).map (fun b => Char.ofNat b.toNat) = Nat.toDigits 2 x := by
  rw [appendInt_natCast, List.map_map]
  conv_rhs => rw [← List.map_id (Nat.toDigits 2 x)]
  refine List.map_congr_left fun c hc => ?_
  exact ofNat_toNat_digitByte (Nat.isDigit_of_mem_toDigits (by omega) (by omega) hc)

theorem appendInt_natCast_inj {x y : ℕ} (h : appendInt x = appendInt y) : x = y := by
  have hd : Nat.toDigits 2 x = Nat.toDigits 2 y := by
    rw [← map_appendInt, ← map_appendInt, h]
  rw [← Nat.ofDigitChars_toDigits (b := 2) (n := x) (by omega) (by omega), hd,
    Nat.ofDigitChars_toDigits (by omega) (by omega)]

theorem appendInt_natCast_ne (x : ℕ) (l : Bytes) : appendInt x ≠ 45 :: l := by
  intro h
  have hd : Nat.toDigits 2 x = '-' :: l.map (fun b => Char.ofNat b.toNat) := by
    rw [← map_appendInt, h]
    rfl
  have hm : '-' ∈ Nat.toDigits 2 x := by
    rw [hd]
    exact List.mem_cons_self
  have := Nat.isDigit_of_mem_toDigits (by omega) (by omega) hm
  exact absurd this (by decide)

/-- **A numeral names one number.** -/
theorem appendInt_injective : Function.Injective appendInt := by
  intro x y h
  cases x with
  | ofNat x =>
    cases y with
    | ofNat y => exact congrArg Int.ofNat (appendInt_natCast_inj h)
    | negSucc y => rw [appendInt_negSucc] at h; exact absurd h (appendInt_natCast_ne x _)
  | negSucc x =>
    cases y with
    | ofNat y => rw [appendInt_negSucc] at h; exact absurd h.symm (appendInt_natCast_ne y _)
    | negSucc y =>
      rw [appendInt_negSucc, appendInt_negSucc] at h
      have := appendInt_natCast_inj (List.cons.inj h).2
      rw [Nat.succ.inj this]

/-! ## Blocks of honest nodes -/

variable {D : Type}

/-- The blocks that a node of a committee of `n` generates: its own id, a view from 0 on, one of the
two heights, and a batch of its own pool or the empty batch. -/
structure Generable (n : ℕ) (b : Block D) : Prop where
  author : 0 ≤ b.author ∧ b.author < n
  view : 0 ≤ b.view
  height : b.height = HEIGHT_1 ∨ b.height = HEIGHT_2
  batch : b.batch.id = -1 ∨ ∃ k : ℕ, b.batch.id = b.author + n * k

/-- What the hash is to identify. -/
def SameBlock (a b : Block D) : Prop :=
  a.author = b.author ∧ a.view = b.view ∧ a.height = b.height ∧ a.batch.id = b.batch.id

theorem Generable.height_lt {n : ℕ} {b : Block D} (h : Generable n b) : b.height < 2 := by
  rcases h.height with h | h
  · rw [h]; decide
  · rw [h]; decide

theorem appendInt_height_length {n : ℕ} {b : Block D} (h : Generable n b) :
    (appendInt b.height).length = 1 := by
  rw [appendInt_bit h.height_lt]
  rfl

/-- Once the ends of the first two numerals are known, everything is. -/
theorem sameBlock_of_lengths {n : ℕ} {a b : Block D} (ha : Generable n a) (hb : Generable n b)
    (h : a.preimage = b.preimage)
    (hA : (appendInt a.author).length = (appendInt b.author).length)
    (hV : (appendInt a.view).length = (appendInt b.view).length) : SameBlock a b := by
  have hH : (appendInt a.height).length = (appendInt b.height).length := by
    rw [appendInt_height_length ha, appendInt_height_length hb]
  simp only [Block.preimage, List.append_assoc] at h
  obtain ⟨h₁, h⟩ := List.append_inj h hA
  obtain ⟨h₂, h⟩ := List.append_inj h hV
  obtain ⟨h₃, h₄⟩ := List.append_inj h hH
  exact ⟨appendInt_injective h₁, appendInt_injective h₂, Int.ofNat.inj (appendInt_injective h₃),
    appendInt_injective h₄⟩

theorem generable_zero {n : ℕ} (hn : 1 ≤ n) {v : ℤ} (hv : 0 ≤ v) {h : ℕ} (hh : h < 2) (k : ℕ) :
    Generable n (⟨0, v, h, ⟨(n * k : ℕ), []⟩, none, []⟩ : Block D) where
  author := ⟨Int.le_refl 0, Int.natCast_pos.2 hn⟩
  view := hv
  height := by
    have : h = 0 ∨ h = 1 := by omega
    exact this
  batch := Or.inr ⟨k, by simp⟩

/-- In every committee, member 0 can generate two blocks with the same bytes: the height and all but
the last digit of the batch id move into the view. -/
theorem exists_collision (D : Type) (n : ℕ) (hn : 1 ≤ n) :
    ∃ a b : Block D, Generable n a ∧ Generable n b ∧ a.preimage = b.preimage ∧ ¬ SameBlock a b := by
  obtain ⟨m, hm, he⟩ := exists_appendInt_append (x := 2) (by omega) n
  have hsplit : appendInt m = appendInt (m / 2 : ℕ) ++ appendInt (m % 2 : ℕ) := by
    rw [appendInt_snoc (by omega) (by omega), Nat.div_add_mod]
  have h2 : appendInt 1 ++ appendInt (0 : ℕ) = appendInt (2 : ℕ) :=
    appendInt_snoc (x := 1) (d := 0) (by omega) (by omega)
  have hn2 : appendInt (n * 2 : ℕ) = appendInt n ++ appendInt (0 : ℕ) := by
    rw [appendInt_snoc (by omega) (by omega), Nat.mul_comm n 2, Nat.add_zero]
  refine ⟨_, _, generable_zero hn (v := 1) (h := 0) (by decide) (by decide) 2,
    generable_zero hn (v := (m / 2 : ℕ)) (h := m % 2) (by omega) (by omega) 0, ?_, ?_⟩
  · calc appendInt 0 ++ appendInt 1 ++ appendInt (0 : ℕ) ++ appendInt (n * 2 : ℕ)
        = appendInt 0 ++ ((appendInt 1 ++ appendInt (0 : ℕ)) ++ appendInt n) ++ appendInt (0 : ℕ) := by
          rw [hn2]; simp only [List.append_assoc]
      _ = appendInt 0 ++ (appendInt (m / 2 : ℕ) ++ appendInt (m % 2 : ℕ)) ++ appendInt (0 : ℕ) := by
          rw [h2, he, hsplit]
      _ = appendInt 0 ++ appendInt (m / 2 : ℕ) ++ appendInt (m % 2 : ℕ) ++ appendInt (n * 0 : ℕ) := by
          rw [Nat.mul_zero]; simp only [List.append_assoc]
  · rintro ⟨-, -, -, hid⟩
    have : ((n * 2 : ℕ) : ℤ) = (n * 0 : ℕ) := hid
    omega

/-- **What the bytes of a block identify.** Two blocks of honest nodes with the same bytes are the
same block exactly if their author numerals have the same length and their view numerals have the
same length; and for no size of the committee do the bytes alone identify the block. -/
theorem preimage_identifies (D : Type) (n : ℕ) (hn : 1 ≤ n) :
    (∀ a b : Block D, Generable n a → Generable n b → a.preimage = b.preimage →
      (SameBlock a b ↔ (appendInt a.author).length = (appendInt b.author).length ∧
        (appendInt a.view).length = (appendInt b.view).length)) ∧
    ∃ a b : Block D, Generable n a ∧ Generable n b ∧ a.preimage = b.preimage ∧ ¬ SameBlock a b := by
  refine ⟨fun a b ha hb h => ⟨?_, fun hl => sameBlock_of_lengths ha hb h hl.1 hl.2⟩,
    exists_collision D n hn⟩
  rintro ⟨hA, hV, -, -⟩
  rw [hA, hV]
  exact ⟨rfl, rfl⟩

theorem preimage_identifies_four :
    ∃ a b : Block ℕ, Generable 4 a ∧ Generable 4 b ∧ a.preimage = b.preimage ∧ ¬ SameBlock a b :=
  (preimage_identifies ℕ 4 (by decide)).2

/-- In a committee of four, node 1's block of view 2 and node 3's block of view 0 have the same bytes,
so one of the two replaces the other in the store. -/
theorem preimage_collision_four :
    ∃ a b : Block ℕ, Generable 4 a ∧ Generable 4 b ∧ a.preimage = b.preimage ∧
      a.author = 1 ∧ a.view = 2 ∧ b.author = 3 ∧ b.view = 0 := by
  refine ⟨⟨1, 2, HEIGHT_1, ⟨-1, []⟩, none, []⟩, ⟨3, 0, HEIGHT_1, ⟨-1, []⟩, none, []⟩,
    ⟨by decide, by decide, by decide, Or.inl rfl⟩, ⟨by decide, by decide, by decide, Or.inl rfl⟩,
    by decide, rfl, rfl, rfl, rfl⟩

end S2Pac
