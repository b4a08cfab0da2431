import Zapcc.ADT.ImmutableSetOperations

/-!
# Finished trees

An operation ends with the marks of its tree, `markImmutable_spec`, and with the recovery of the
nodes that it has discarded, `recoverNodes_spec`: a node with a reference is never destroyed.
-/

namespace Zapcc.ADT.ImutAVLFactory

open RelaxedAVL Option Function

variable {α : Type} {F F' : ImutAVLFactory α} {S S' : Finset Nat} {P : Nat → Nat}

/-! ## Releasing -/

/-- One more reference outside to the node of a pointer. -/
def plus (P : Nat → Nat) (p : Option Nat) : Nat → Nat := fun n => P n + if p = some n then 1 else 0

/-- Some nodes were destroyed, and the others are as before but for their counts. -/
structure Freed (F : ImutAVLFactory α) (S : Finset Nat) (P : Nat → Nat) (F' : ImutAVLFactory α)
    (S' : Finset Nat) : Prop where
  valid : Valid F' S' P
  sub : S' ⊆ S
  same : ∀ n ∈ S', ∀ N, F.memory n = some N → ∃ c, F'.memory n = some { N with refCount := c }
  outside : ∀ n, n ∉ S → F'.memory n = F.memory n
  immutable : ∀ n ∈ S, n ∉ S' → ∃ N, F'.memory n = some N ∧ N.IsMutable = false
  freed : ∀ n ∈ F'.freeNodes, n ∈ F.freeNodes ∨ n ∈ S
  allocated : F'.allocated = F.allocated

/-- The nodes of a set to which nothing refers are as before. -/
def KeepsUnreferenced (F : ImutAVLFactory α) (S : Finset Nat) (F' : ImutAVLFactory α)
    (S' : Finset Nat) : Prop :=
  ∀ n ∈ S, ∀ N, F.memory n = some N → N.refCount = 0 → n ∈ S' ∧ F'.memory n = some N

theorem Freed.refl (h : Valid F S P) : Freed F S P F S :=
  ⟨h, fun _ h => h, fun _ _ N hN => ⟨N.refCount, hN⟩, fun _ _ => rfl, fun _ hn hn' => absurd hn hn',
    fun _ hn => .inl hn, rfl⟩

theorem Freed.trans {Q : Nat → Nat} {F'' : ImutAVLFactory α} {S'' : Finset Nat}
    (h : Freed F S Q F' S') (h' : Freed F' S' P F'' S'') : Freed F S P F'' S'' where
  valid := h'.valid
  sub := h'.sub.trans h.sub
  same := by
    intro n hn N hN
    obtain ⟨c, hc⟩ := h.same n (h'.sub hn) N hN
    obtain ⟨c', hc'⟩ := h'.same n hn _ hc
    exact ⟨c', hc'⟩
  outside := fun n hn => (h'.outside n fun hn' => hn (h.sub hn')).trans (h.outside n hn)
  immutable := by
    intro n hn hn''
    by_cases hn' : n ∈ S'
    · exact h'.immutable n hn' hn''
    · rw [h'.outside n hn']
      exact h.immutable n hn hn'
  freed := by
    intro n hn
    rcases h'.freed n hn with hn | hn
    · exact h.freed n hn
    · exact .inr (h.sub hn)
  allocated := h'.allocated.trans h.allocated

theorem KeepsUnreferenced.trans {F'' : ImutAVLFactory α} {S'' : Finset Nat}
    (h : KeepsUnreferenced F S F' S') (h' : KeepsUnreferenced F' S' F'' S'') :
    KeepsUnreferenced F S F'' S'' := by
  intro n hn N hN hcount
  obtain ⟨hn', hN'⟩ := h n hn N hN hcount
  exact h' n hn' N hN' hcount

variable {N : ImutAVLTree α}

theorem Valid.refCount (h : Valid F S P) {T : Nat} (hT : T ∈ S)
    (hmem : F.memory T = some N) : N.refCount = edges F S T + P T := by
  obtain ⟨N', hmem', -, -, hcount⟩ := h.reads T hT
  obtain rfl := Option.some.inj (hmem.symm.trans hmem')
  exact hcount

theorem Valid.decrement {T : Nat} (h : Valid F S (plus P (some T)))
    (hmem : F.memory T = some N) :
    0 < N.refCount ∧ Valid (F.write T { N with refCount := N.refCount - 1 }) S P := by
  have hT : T ∈ S := h.held T (by simp [plus])
  have hcount := h.refCount hT hmem
  have hplus : plus P (some T) T = P T + 1 := by simp [plus]
  have hedges : ∀ n, edges (F.write T { N with refCount := N.refCount - 1 }) S n = edges F S n := by
    intro n
    refine Finset.sum_congr rfl fun m _ => ?_
    rcases eq_or_ne m T with rfl | hne
    · simp [write, hmem, pointers]
    · simp [write, update_of_ne hne]
  refine ⟨by omega, fun n hn => ?_, h.bound, h.free, h.nodup, fun n hn => h.held n ?_⟩
  · rw [hedges]
    obtain ⟨M, hM, hal, har, hc⟩ := h.reads n hn
    rcases eq_or_ne n T with rfl | hne
    · obtain rfl := Option.some.inj (hmem.symm.trans hM)
      refine ⟨{ N with refCount := N.refCount - 1 }, by simp [write], hal, har, ?_⟩
      show N.refCount - 1 = _
      omega
    · refine ⟨M, by simp [write, update_of_ne hne, hM], hal, har, ?_⟩
      simpa [plus, hne.symm] using hc
  · exact Nat.lt_of_lt_of_le hn (Nat.le_add_right _ _)

theorem Valid.erase {T : Nat} (h : Valid F S P) (hT : T ∈ S)
    (hmem : F.memory T = some N) (hcount : N.refCount = 0) :
    Valid F (S.erase T) (plus (plus P N.right) N.left) := by
  have hsum := h.refCount hT hmem
  have hzero : edges F S T = 0 := by omega
  have hnone := Finset.sum_eq_zero_iff.mp hzero
  have herase : ∀ {p : Option Nat} {m : Nat} {M : ImutAVLTree α}, m ∈ S → F.memory m = some M →
      (p = M.left ∨ p = M.right) → Alive S p → Alive (S.erase T) p := by
    intro p m M hm hM hchild hp n hn
    refine Finset.mem_erase.mpr ⟨?_, hp n hn⟩
    rintro rfl
    have hpointers := hnone m hm
    rw [hM] at hpointers
    rcases hchild with rfl | rfl
    · simp [pointers, hn] at hpointers
    · simp [pointers, hn] at hpointers
  have hedges : ∀ n, edges F S n = pointers (some N) n + edges F (S.erase T) n := by
    intro n
    rw [← hmem]
    exact (Finset.add_sum_erase S (fun m => pointers (F.memory m) n) hT).symm
  refine ⟨fun n hn => ?_, fun n hn => h.bound n (Finset.mem_of_mem_erase hn), fun n hn => ?_,
    h.nodup, fun n hn => ?_⟩
  · obtain ⟨M, hM, hal, har, hc⟩ := h.reads n (Finset.mem_of_mem_erase hn)
    have hn' := Finset.mem_of_mem_erase hn
    refine ⟨M, hM, herase hn' hM (.inl rfl) hal, herase hn' hM (.inr rfl) har, ?_⟩
    rw [hc, hedges]
    simp only [pointers, plus]
    omega
  · exact ⟨(h.free n hn).1, fun hmem' => (h.free n hn).2 (Finset.mem_of_mem_erase hmem')⟩
  · obtain ⟨hal, har⟩ := h.alive hT hmem
    unfold plus at hn
    by_cases hl : N.left = some n
    · exact herase hT hmem (.inl rfl) hal n hl
    · by_cases hr : N.right = some n
      · exact herase hT hmem (.inr rfl) har n hr
      · rw [if_neg hl, if_neg hr] at hn
        refine Finset.mem_erase.mpr ⟨?_, h.held n (by omega)⟩
        rintro rfl
        omega

theorem Freed.recycle {T : Nat} (hT : T ∈ S)
    (h : Freed F (S.erase T) P F' S') (hmem : F'.memory T = some N) (hbound : T < F.allocated)
    (hfree : T ∉ F.freeNodes) :
    Freed F S P { F'.write T { N with IsMutable := false } with
      freeNodes := T :: F'.freeNodes } S' := by
  have hTS' : T ∉ S' := fun hn => Finset.notMem_erase T S (h.sub hn)
  have hother : ∀ n, n ≠ T → (F'.write T { N with IsMutable := false }).memory n = F'.memory n :=
    fun n hne => by simp [write, update_of_ne hne]
  have hne : ∀ n ∈ S', n ≠ T := fun n hn heq => hTS' (heq ▸ hn)
  refine
    { valid := ⟨fun n hn => ?_, h.valid.bound, fun n hn => ?_, ?_, h.valid.held⟩
      sub := fun n hn => Finset.mem_of_mem_erase (h.sub hn)
      same := fun n hn M hM => ?_
      outside := fun n hn => ?_
      immutable := fun n hn hn' => ?_
      freed := fun n hn => ?_
      allocated := h.allocated }
  · obtain ⟨M, hM, hal, har, hc⟩ := h.valid.reads n hn
    refine ⟨M, (hother n (hne n hn)).trans hM, hal, har, ?_⟩
    show M.refCount = edges (F'.write T { N with IsMutable := false }) S' n + P n
    rw [edges_write hTS']
    exact hc
  · rcases List.mem_cons.mp hn with rfl | hn
    · exact ⟨h.allocated ▸ hbound, hTS'⟩
    · exact h.valid.free n hn
  · refine List.nodup_cons.mpr ⟨fun hn => ?_, h.valid.nodup⟩
    rcases h.freed T hn with hn | hn
    · exact hfree hn
    · exact Finset.notMem_erase T S hn
  · obtain ⟨c, hc⟩ := h.same n hn M hM
    exact ⟨c, (hother n (hne n hn)).trans hc⟩
  · have hnT : n ≠ T := fun heq => hn (heq ▸ hT)
    exact (hother n hnT).trans (h.outside n fun hn' => hn (Finset.mem_of_mem_erase hn'))
  · rcases eq_or_ne n T with rfl | hnT
    · exact ⟨{ N with IsMutable := false }, by simp [write], rfl⟩
    · obtain ⟨M, hM, himm⟩ := h.immutable n (Finset.mem_erase.mpr ⟨hnT, hn⟩) hn'
      exact ⟨M, (hother n hnT).trans hM, himm⟩
  · rcases List.mem_cons.mp hn with rfl | hn
    · exact .inr hT
    · exact (h.freed n hn).imp_right Finset.mem_of_mem_erase

theorem release_destroy_spec (fuel : Nat) :
    (∀ (F : ImutAVLFactory α) (S : Finset Nat) (P : Nat → Nat) (p : Option Nat),
      Valid F S (plus P p) → 2 * S.card + 1 ≤ fuel →
      ∃ F' S', F.release fuel p = some F' ∧ Freed F S P F' S' ∧ KeepsUnreferenced F S F' S') ∧
    ∀ (F : ImutAVLFactory α) (S : Finset Nat) (P : Nat → Nat) (T : Nat) (N : ImutAVLTree α),
      Valid F S P → T ∈ S → F.memory T = some N → N.refCount = 0 → 2 * S.card ≤ fuel →
      ∃ F' S', F.destroy fuel T = some F' ∧ Freed F S P F' S' ∧
        KeepsUnreferenced F (S.erase T) F' S' := by
  induction fuel with
  | zero =>
    refine ⟨fun F S P p _ hfuel => by omega, fun F S P T N _ hT _ _ hfuel => ?_⟩
    have hpos := Finset.card_pos.mpr ⟨T, hT⟩
    omega
  | succ fuel ih =>
    obtain ⟨ihrelease, ihdestroy⟩ := ih
    constructor
    · intro F S P p h hfuel
      cases p with
      | none =>
        exact ⟨F, S, by simp [release], Freed.refl h, fun n hn N hN _ => ⟨hn, hN⟩⟩
      | some T =>
        have hT : T ∈ S := h.held T (by simp [plus])
        obtain ⟨N, hmem, -⟩ := h.reads T hT
        obtain ⟨hpos, hV⟩ := h.decrement hmem
        have hne0 : N.refCount ≠ 0 := by omega
        set F₁ := F.write T { N with refCount := N.refCount - 1 } with hF₁
        have hmem₁ : F₁.memory T = some { N with refCount := N.refCount - 1 } := by
          simp [hF₁, write]
        have hother : ∀ n, n ≠ T → F₁.memory n = F.memory n := fun n hne => by
          simp [hF₁, write, update_of_ne hne]
        have hfirst : Freed F S P F₁ S :=
          { valid := hV
            sub := fun _ hn => hn
            same := fun n _ M hM => by
              rcases eq_or_ne n T with rfl | hne
              · obtain rfl := Option.some.inj (hmem.symm.trans hM)
                exact ⟨_, hmem₁⟩
              · exact ⟨M.refCount, (hother n hne).trans hM⟩
            outside := fun n hn => hother n fun heq => hn (heq ▸ hT)
            immutable := fun n hn hn' => absurd hn hn'
            freed := fun n hn => .inl hn
            allocated := rfl }
        have hkeeps : ∀ n ∈ S, ∀ M, F.memory n = some M → M.refCount = 0 →
            n ≠ T ∧ F₁.memory n = some M := by
          intro n hn M hM hzero
          have hne : n ≠ T := by
            rintro rfl
            obtain rfl := Option.some.inj (hmem.symm.trans hM)
            exact hne0 hzero
          exact ⟨hne, (hother n hne).trans hM⟩
        unfold release
        simp only [hmem, bind_eq_bind, bind_some, hne0, if_false, ← hF₁]
        split_ifs with hlast
        · obtain ⟨F', S', hrun, hfreed, hkept⟩ :=
            ihdestroy F₁ S P T _ hV hT hmem₁ hlast (by omega)
          refine ⟨F', S', hrun, hfirst.trans hfreed, fun n hn M hM hzero => ?_⟩
          obtain ⟨hne, hM₁⟩ := hkeeps n hn M hM hzero
          exact hkept n (Finset.mem_erase.mpr ⟨hne, hn⟩) M hM₁ hzero
        · exact ⟨F₁, S, rfl, hfirst, fun n hn M hM hzero =>
            ⟨hn, (hkeeps n hn M hM hzero).2⟩⟩
    · intro F S P T N h hT hmem hcount hfuel
      have hcard := Finset.card_erase_add_one hT
      obtain ⟨F₁, S₁, hrun₁, hfreed₁, hkept₁⟩ := ihrelease F (S.erase T) (plus P N.right) N.left
        (h.erase hT hmem hcount) (by omega)
      have hle := Finset.card_le_card hfreed₁.sub
      obtain ⟨F₂, S₂, hrun₂, hfreed₂, hkept₂⟩ :=
        ihrelease F₁ S₁ P N.right hfreed₁.valid (by omega)
      have hfreed := hfreed₁.trans hfreed₂
      have hmem₁ := (hfreed₁.outside T (Finset.notMem_erase T S)).trans hmem
      have hmem₂ := (hfreed.outside T (Finset.notMem_erase T S)).trans hmem
      refine ⟨_, S₂, ?_, hfreed.recycle hT hmem₂ (h.bound T hT) fun hn => (h.free T hn).2 hT, ?_⟩
      · unfold destroy
        simp [hmem, hrun₁, hmem₁, hrun₂, hmem₂, write]
      · intro n hn M hM hzero
        obtain ⟨hn', hM'⟩ := hkept₁.trans hkept₂ n hn M hM hzero
        have hne := Finset.ne_of_mem_erase hn
        exact ⟨hn', by simpa [write, update_of_ne hne] using hM'⟩

/-! ## The discarded nodes -/

/-- A recovery keeps the finished trees to which nothing refers yet. -/
def KeepsFinished (F : ImutAVLFactory α) (S : Finset Nat) (F' : ImutAVLFactory α)
    (S' : Finset Nat) : Prop :=
  ∀ n ∈ S, ∀ N, F.memory n = some N → N.refCount = 0 → N.IsMutable = false →
    n ∈ S' ∧ F'.memory n = some N

/-- A created node is alive, or it was destroyed with another one. -/
def AliveOrDestroyed (F : ImutAVLFactory α) (S : Finset Nat) (T : Nat) : Prop :=
  T ∈ S ∨ ∃ N, F.memory T = some N ∧ N.IsMutable = false

theorem AliveOrDestroyed.freed {T : Nat} (h : AliveOrDestroyed F S T) (hfreed : Freed F S P F' S') :
    AliveOrDestroyed F' S' T := by
  by_cases hS : T ∈ S
  · by_cases hS' : T ∈ S'
    · exact .inl hS'
    · exact .inr (hfreed.immutable T hS hS')
  · obtain ⟨N, hN, himm⟩ := h.resolve_left hS
    exact .inr ⟨N, (hfreed.outside T hS).trans hN, himm⟩

theorem recoverNode_spec {T : Nat} (h : Valid F S P) (hT : AliveOrDestroyed F S T) :
    ∃ F' S', F.recoverNode T = some F' ∧ Freed F S P F' S' ∧ KeepsFinished F S F' S' := by
  have hread : ∃ N, F.memory T = some N ∧ (T ∈ S ∨ N.IsMutable = false) := by
    rcases hT with hT | ⟨N, hN, himm⟩
    · obtain ⟨N, hN, -⟩ := h.reads T hT
      exact ⟨N, hN, .inl hT⟩
    · exact ⟨N, hN, .inr himm⟩
  obtain ⟨N, hmem, hN⟩ := hread
  unfold recoverNode
  simp only [hmem, bind_eq_bind, bind_some]
  split_ifs with hdiscard
  · have hTS := hN.resolve_right (by simp [hdiscard.1])
    obtain ⟨F', S', hrun, hfreed, hkept⟩ := (release_destroy_spec F.releaseFuel).2 F S P T N h hTS
      hmem hdiscard.2 (by have := h.card_le; unfold releaseFuel; omega)
    refine ⟨F', S', hrun, hfreed, fun n hn M hM hzero himm => ?_⟩
    refine hkept n (Finset.mem_erase.mpr ⟨?_, hn⟩) M hM hzero
    rintro rfl
    obtain rfl := Option.some.inj (hmem.symm.trans hM)
    exact absurd hdiscard.1 (by simp [himm])
  · exact ⟨F, S, rfl, Freed.refl h, fun n hn M hM _ _ => ⟨hn, hM⟩⟩

theorem recoverLoop_spec (created : List Nat) (h : Valid F S P)
    (hcreated : ∀ T ∈ created, AliveOrDestroyed F S T) :
    ∃ F' S', created.foldlM recoverNode F = some F' ∧ Freed F S P F' S' ∧
      KeepsFinished F S F' S' := by
  induction created generalizing F S with
  | nil => exact ⟨F, S, rfl, Freed.refl h, fun n hn M hM _ _ => ⟨hn, hM⟩⟩
  | cons T created ih =>
    obtain ⟨F₁, S₁, hrun₁, hfreed₁, hkept₁⟩ := recoverNode_spec h (hcreated T List.mem_cons_self)
    obtain ⟨F₂, S₂, hrun₂, hfreed₂, hkept₂⟩ := ih hfreed₁.valid fun T' hT' =>
      (hcreated T' (List.mem_cons_of_mem T hT')).freed hfreed₁
    refine ⟨F₂, S₂, ?_, hfreed₁.trans hfreed₂, fun n hn M hM hzero himm => ?_⟩
    · rw [List.foldlM_cons, hrun₁]
      exact hrun₂
    · obtain ⟨hn₁, hM₁⟩ := hkept₁ n hn M hM hzero himm
      exact hkept₂ n hn₁ M hM₁ hzero himm

/-! ## Marks -/

/-- The nodes that are not mutable any more. -/
def mark (F : ImutAVLFactory α) (M : Nat → Bool) : ImutAVLFactory α :=
  { F with memory := fun n => (F.memory n).map fun N => { N with IsMutable := N.IsMutable && M n } }

theorem mark_mark (M M' : Nat → Bool) : (F.mark M).mark M' = F.mark fun n => M n && M' n := by
  unfold mark
  simp only [map_map, comp_def, Bool.and_assoc]

theorem mark_memory {M : Nat → Bool} {n : Nat} (h : F.memory n = some N) :
    (F.mark M).memory n = some { N with IsMutable := N.IsMutable && M n } := by
  simp [mark, h]

theorem of_mark_memory {M : Nat → Bool} {n : Nat}
    (h : (F.mark M).memory n = some N) :
    ∃ N', F.memory n = some N' ∧ N = { N' with IsMutable := N'.IsMutable && M n } := by
  obtain ⟨N', hN', heq⟩ := Option.map_eq_some_iff.mp h
  exact ⟨N', hN', heq.symm⟩

theorem write_eq_mark {T : Nat} (h : F.memory T = some N) :
    F.write T { N with IsMutable := false } = F.mark fun n => !decide (n = T) := by
  unfold write mark
  congr 1
  funext n
  rcases eq_or_ne n T with rfl | hne
  · simp [h]
  · rw [update_of_ne hne]
    cases F.memory n with
    | none => rfl
    | some M => simp [hne]

theorem Valid.mark (h : Valid F S P) (M : Nat → Bool) : Valid (F.mark M) S P := by
  have hedges : ∀ n, edges (F.mark M) S n = edges F S n := fun n =>
    Finset.sum_congr rfl fun m _ => by
      unfold ImutAVLFactory.mark
      dsimp only
      cases F.memory m <;> rfl
  refine ⟨fun n hn => ?_, h.bound, h.free, h.nodup, h.held⟩
  obtain ⟨N, hN, hal, har, hcount⟩ := h.reads n hn
  exact ⟨_, mark_memory hN, hal, har, by rw [hedges]; exact hcount⟩

theorem Holds.mark {p : Option Nat} {t : SearchTree α} (h : Holds F p t) (M : Nat → Bool) :
    Holds (F.mark M) p t := by
  induction h with
  | nil => exact .nil
  | @node T N l r hmem hleft hright hheight ihl ihr =>
    exact .node (N := { N with IsMutable := N.IsMutable && M T }) (mark_memory hmem) ihl ihr
      hheight

theorem Immutable.mark {p : Option Nat} (h : Immutable F p) (M : Nat → Bool) :
    Immutable (F.mark M) p := by
  intro T N hT hN
  obtain ⟨N', hN', rfl⟩ := of_mark_memory hN
  simp [h T N' hT hN']

theorem mark_true : F.mark (fun _ => true) = F := by
  unfold mark
  simp

theorem markImmutable_spec {p : Option Nat} {t : SearchTree α} {fuel : Nat} {X : Set Nat}
    (h : Valid F S P) (hp : Alive S p) (ht : Holds F p t) (hclosed : Closed F S X)
    (hfuel : t.height ≤ fuel) :
    ∃ M, F.markImmutable fuel p = some (F.mark M) ∧ Closed (F.mark M) S X ∧
      Immutable (F.mark M) p := by
  induction t generalizing F p fuel X with
  | nil =>
    rw [ht.eq_none]
    refine ⟨fun _ => true, ?_, by rw [mark_true]; exact hclosed, fun T N hT => nomatch hT⟩
    rw [mark_true]
    cases fuel <;> simp [markImmutable]
  | node l w r ihl ihr =>
    rw [SearchTree.height_node] at hfuel
    obtain ⟨k, rfl⟩ := Nat.exists_eq_succ_of_ne_zero (by omega : fuel ≠ 0)
    cases ht with
    | @node T N _ _ hmem hleft hright hheight =>
      obtain ⟨hal, har⟩ := h.alive (hp T rfl) hmem
      unfold markImmutable
      simp only [hmem, bind_eq_bind, bind_some]
      split_ifs with hN
      · rw [write_eq_mark hmem]
        set F₁ := F.mark fun n => !decide (n = T) with hF₁
        have himm : Immutable F₁ (some T) := by
          intro T' N' hT' hN'
          obtain rfl := Option.some.inj hT'
          obtain ⟨M', -, rfl⟩ := of_mark_memory hN'
          simp
        have hclosed₁ : Closed F₁ S (insert T X) := by
          intro n hn hX N' hN' hfalse
          obtain ⟨M', hM', rfl⟩ := of_mark_memory hN'
          have hne : n ≠ T := fun heq => hX (heq ▸ Set.mem_insert n X)
          obtain ⟨hil, hir⟩ := hclosed n hn (fun hnX => hX (Set.mem_insert_of_mem T hnX)) M' hM'
            (by simpa [hne] using hfalse)
          exact ⟨hil.mark _, hir.mark _⟩
        have hV₁ : Valid F₁ S P := h.mark _
        obtain ⟨M₁, hrun₁, hclosed₂, hil⟩ :=
          ihl hV₁ hal (hleft.mark _) hclosed₁ (show _ ≤ k by omega)
        obtain ⟨M₂, hrun₂, hclosed₃, hir⟩ :=
          ihr (hV₁.mark M₁) har ((hright.mark _).mark M₁) hclosed₂ (show _ ≤ k by omega)
        refine ⟨fun n => (!decide (n = T) && M₁ n) && M₂ n, ?_, ?_, ?_⟩
        · rw [hrun₁, bind_some, hrun₂, hF₁, mark_mark, mark_mark]
          simp only [Bool.and_assoc]
        · rw [← mark_mark, ← mark_mark]
          intro n hn hX N' hN' hfalse
          rcases eq_or_ne n T with rfl | hne
          · have hN'' := mark_memory (M := M₂) (mark_memory (M := M₁)
              (mark_memory (M := fun m => !decide (m = n)) hmem))
            obtain rfl := Option.some.inj (hN''.symm.trans hN')
            exact ⟨hil.mark M₂, hir⟩
          · refine hclosed₃ n hn (fun hmemX => ?_) N' hN' hfalse
            exact (Set.mem_insert_iff.mp hmemX).elim hne hX
        · rw [← mark_mark, ← mark_mark]
          exact (himm.mark M₁).mark M₂
      · refine ⟨fun _ => true, by rw [mark_true]; rfl, by rw [mark_true]; exact hclosed, ?_⟩
        rw [mark_true]
        intro T' N' hT' hN'
        obtain rfl := Option.some.inj hT'
        obtain rfl := Option.some.inj (hmem.symm.trans hN')
        simpa using hN

end Zapcc.ADT.ImutAVLFactory
