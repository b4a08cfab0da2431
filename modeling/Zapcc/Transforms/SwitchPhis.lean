import Zapcc.Transforms.LowerSwitch

/-!
# The entries of PHI nodes

What the changes of PHI nodes do to the number of entries for each block, and to their values.
-/

namespace Zapcc.LowerSwitch

open List

variable {w : Nat} {V : Type} {OrigBB NewBB : Nat}

@[simp] theorem PHINode.countFrom_nil (BB : Nat) : PHINode.countFrom ([] : PHINode V) BB = 0 := rfl

theorem PHINode.countFrom_cons (x : V) (B BB : Nat) (PN : PHINode V) :
    PHINode.countFrom ((x, B) :: PN) BB = PHINode.countFrom PN BB + if B = BB then 1 else 0 := by
  unfold PHINode.countFrom
  rw [map_cons, count_cons]
  simp

theorem PHINode.countFrom_pos {PN : PHINode V} {BB : Nat} :
    0 < PN.countFrom BB ↔ ∃ x, (x, BB) ∈ PN := by
  unfold PHINode.countFrom
  simp

theorem countFrom_removeEntries (n : Nat) (PN : PHINode V) (h : n ≤ PN.countFrom OrigBB) (Q : Nat) :
    (removeEntries OrigBB n PN).countFrom Q + (if Q = OrigBB then n else 0) = PN.countFrom Q := by
  induction PN generalizing n with
  | nil =>
    rw [PHINode.countFrom_nil] at h
    have hn : n = 0 := by omega
    subst hn
    simp [removeEntries]
  | cons e PN ih =>
    obtain ⟨x, BB⟩ := e
    cases n with
    | zero => simp [removeEntries]
    | succ n =>
      rw [PHINode.countFrom_cons] at h ⊢
      rw [removeEntries]
      by_cases hBB : BB = OrigBB
      · rw [if_pos hBB] at h ⊢
        have hrest := ih n (by omega)
        subst hBB
        by_cases hQ : Q = BB
        · rw [if_pos hQ] at hrest ⊢
          rw [if_pos hQ.symm]
          omega
        · rw [if_neg hQ] at hrest ⊢
          rw [if_neg (Ne.symm hQ)]
          omega
      · rw [if_neg hBB] at h ⊢
        rw [PHINode.countFrom_cons, ← ih (n + 1) (by omega)]
        omega

theorem countFrom_fixPhi (NewBB n : Nat) (PN : PHINode V) (h : n < PN.countFrom OrigBB) (Q : Nat) :
    (fixPhi OrigBB NewBB n PN).countFrom Q + (if Q = OrigBB then n + 1 else 0) =
      PN.countFrom Q + if Q = NewBB then 1 else 0 := by
  induction PN with
  | nil => exact absurd h (by simp)
  | cons e PN ih =>
    obtain ⟨x, BB⟩ := e
    rw [PHINode.countFrom_cons] at h ⊢
    rw [fixPhi]
    by_cases hBB : BB = OrigBB
    · rw [if_pos hBB] at h
      have hle : n ≤ PHINode.countFrom PN OrigBB := by omega
      have hrest := countFrom_removeEntries n PN hle Q
      rw [if_pos hBB, PHINode.countFrom_cons, hBB, ← hrest]
      simp only [eq_comm (b := Q)]
      by_cases hQ : Q = OrigBB
      · simp only [if_pos hQ]
        omega
      · simp only [if_neg hQ]
        omega
    · rw [if_neg hBB] at h ⊢
      rw [PHINode.countFrom_cons]
      omega

theorem setIncomingBlock_eq_fixPhi (PN : PHINode V) :
    setIncomingBlock OrigBB NewBB PN = fixPhi OrigBB NewBB 0 PN := by
  induction PN with
  | nil => rfl
  | cons e PN ih =>
    have hremove : removeEntries OrigBB 0 PN = PN := by cases PN <;> rfl
    rw [setIncomingBlock, fixPhi, ih, hremove]

theorem countFrom_setIncomingBlock (NewBB : Nat) (PN : PHINode V) (h : 0 < PN.countFrom OrigBB)
    (Q : Nat) :
    (setIncomingBlock OrigBB NewBB PN).countFrom Q + (if Q = OrigBB then 1 else 0) =
      PN.countFrom Q + if Q = NewBB then 1 else 0 := by
  rw [setIncomingBlock_eq_fixPhi]
  exact countFrom_fixPhi NewBB 0 PN h Q

theorem mem_of_mem_removeEntries {n : Nat} {PN : PHINode V} {e : V × Nat}
    (h : e ∈ removeEntries OrigBB n PN) : e ∈ PN := by
  induction PN generalizing n with
  | nil => simp [removeEntries] at h
  | cons e' PN ih =>
    cases n with
    | zero => exact h
    | succ n =>
      rw [removeEntries] at h
      split at h
      · exact mem_cons_of_mem _ (ih h)
      · rcases mem_cons.mp h with rfl | h
        · exact mem_cons_self
        · exact mem_cons_of_mem _ (ih h)

/-- Each entry keeps its value, but perhaps for another block than `OrigBB`. -/
def KeepsValues (OrigBB : Nat) (PN PN' : PHINode V) : Prop :=
  ∀ x BB, (x, BB) ∈ PN' → (x, BB) ∈ PN ∨ (x, OrigBB) ∈ PN

theorem KeepsValues.trans {PN PN' PN'' : PHINode V} (h : KeepsValues OrigBB PN PN')
    (h' : KeepsValues OrigBB PN' PN'') : KeepsValues OrigBB PN PN'' := by
  intro x BB hmem
  rcases h' x BB hmem with hmem | hmem
  · exact h x BB hmem
  · exact .inr ((h x OrigBB hmem).elim id id)

theorem keepsValues_removeEntries (n : Nat) (PN : PHINode V) :
    KeepsValues OrigBB PN (removeEntries OrigBB n PN) := fun _ _ hmem =>
  .inl (mem_of_mem_removeEntries hmem)

theorem keepsValues_fixPhi (n : Nat) (PN : PHINode V) :
    KeepsValues OrigBB PN (fixPhi OrigBB NewBB n PN) := by
  intro x BB hmem
  induction PN with
  | nil => simp [fixPhi] at hmem
  | cons e PN ih =>
    rw [fixPhi] at hmem
    split at hmem
    · next hBB =>
      rcases mem_cons.mp hmem with heq | hmem
      · refine .inr ?_
        rw [← hBB, (Prod.mk.inj heq).1]
        exact mem_cons_self
      · exact .inl (mem_cons_of_mem _ (mem_of_mem_removeEntries hmem))
    · rcases mem_cons.mp hmem with heq | hmem
      · rw [heq]
        exact .inl mem_cons_self
      · exact (ih hmem).imp (mem_cons_of_mem _) (mem_cons_of_mem _)

theorem keepsValues_setIncomingBlock (PN : PHINode V) :
    KeepsValues OrigBB PN (setIncomingBlock OrigBB NewBB PN) :=
  setIncomingBlock_eq_fixPhi PN ▸ keepsValues_fixPhi 0 PN

end Zapcc.LowerSwitch
