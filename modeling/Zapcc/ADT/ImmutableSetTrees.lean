import Zapcc.ADT.ImmutableSet
import Zapcc.Library.RelaxedAVL
import Mathlib.Algebra.Order.BigOperators.Group.Finset

/-!
# Trees in the memory of a factory

`Holds` and `Frozen` say which tree is at a pointer, and `Valid` counts the references: those in
the nodes that are alive, and the pending ones outside. `createNode_spec` and `balanceTree_spec` are
about the nodes that an operation creates, over those that exist, which stay as they are.
-/

namespace Zapcc.ADT.ImutAVLFactory

open RelaxedAVL Option Function Finset

variable {α : Type} {F F' : ImutAVLFactory α} {S S' : Finset Nat} {P : Nat → Nat}

/-! ## Trees -/

/-- The tree at a pointer, whose nodes hold the heights of their subtrees. -/
inductive Holds (F : ImutAVLFactory α) : Option Nat → SearchTree α → Prop
  | nil : Holds F none .nil
  | node {T : Nat} {N : ImutAVLTree α} {l r : SearchTree α} (hmem : F.memory T = some N)
      (hleft : Holds F N.left l) (hright : Holds F N.right r)
      (hheight : N.height = max l.height r.height + 1) : Holds F (some T) (.node l N.value r)

variable {p : Option Nat} {t : SearchTree α} {L R : Option Nat} {l r : SearchTree α}

theorem Holds.unique {s t : SearchTree α} (hs : Holds F p s) (ht : Holds F p t) :
    s = t := by
  induction hs generalizing t with
  | nil =>
    cases ht
    rfl
  | node hmem hleft hright hheight ihl ihr =>
    cases ht with
    | node hmem' hleft' hright' hheight' =>
      obtain rfl := some.inj (hmem.symm.trans hmem')
      rw [ihl hleft', ihr hright']

theorem Holds.root {T : Nat} (h : Holds F (some T) t) :
    ∃ N l r, F.memory T = some N ∧ t = .node l N.value r ∧ Holds F N.left l ∧
      Holds F N.right r ∧ N.height = t.height := by
  cases h with
  | node hmem hleft hright hheight => exact ⟨_, _, _, hmem, rfl, hleft, hright, hheight⟩

theorem Holds.eq_nil (h : Holds F none t) : t = .nil := by
  cases h
  rfl

theorem Holds.getHeight (h : Holds F p t) :
    F.getHeight p = some t.height := by
  cases p with
  | none =>
    rw [h.eq_nil]
    rfl
  | some T =>
    obtain ⟨N, l, r, hmem, -, -, -, hheight⟩ := h.root
    simp [ImutAVLFactory.getHeight, hmem, hheight]

theorem Holds.incrementHeight (hl : Holds F L l)
    (hr : Holds F R r) : F.incrementHeight L R = some (max l.height r.height + 1) := by
  unfold ImutAVLFactory.incrementHeight
  simp only [hl.getHeight, hr.getHeight, bind_eq_bind, bind_some]
  congr 2
  split_ifs <;> omega

theorem Holds.deref (h : Holds F p t) (hpos : 0 < t.height) :
    ∃ T N l r, p = some T ∧ F.memory T = some N ∧ F.deref p = some (T, N) ∧
      t = .node l N.value r ∧ Holds F N.left l ∧ Holds F N.right r := by
  cases p with
  | none =>
    rw [h.eq_nil] at hpos
    exact absurd hpos (Nat.lt_irrefl 0)
  | some T =>
    obtain ⟨N, l, r, hmem, rfl, hleft, hright, -⟩ := h.root
    exact ⟨T, N, l, r, rfl, hmem, by simp [ImutAVLFactory.deref, hmem], rfl, hleft, hright⟩

/-! ## References -/

/-- The pointers of a node to another one. -/
def pointers : Option (ImutAVLTree α) → Nat → Nat
  | none, _ => 0
  | some N, n => (if N.left = some n then 1 else 0) + (if N.right = some n then 1 else 0)

/-- The pointers of some nodes to another one. -/
def edges (F : ImutAVLFactory α) (S : Finset Nat) (n : Nat) : Nat :=
  ∑ m ∈ S, pointers (F.memory m) n

/-- A pointer into a set of nodes. -/
def Alive (S : Finset Nat) (p : Option Nat) : Prop := ∀ n, p = some n → n ∈ S

/-- The nodes of a set are in memory with their children, the count of each is the number of its
references in the set and of its references `P` outside, and the other nodes can be reused. -/
structure Valid (F : ImutAVLFactory α) (S : Finset Nat) (P : Nat → Nat) : Prop where
  reads : ∀ n ∈ S, ∃ N, F.memory n = some N ∧ Alive S N.left ∧ Alive S N.right ∧
    N.refCount = edges F S n + P n
  bound : ∀ n ∈ S, n < F.allocated
  free : ∀ n ∈ F.freeNodes, n < F.allocated ∧ n ∉ S
  nodup : F.freeNodes.Nodup
  held : ∀ n, 0 < P n → n ∈ S

/-- A pointer to a node that is not mutable any more. -/
def Immutable (F : ImutAVLFactory α) (p : Option Nat) : Prop :=
  ∀ T N, p = some T → F.memory T = some N → N.IsMutable = false

/-- The children of a node that is not mutable are not, but for some nodes. -/
def Closed (F : ImutAVLFactory α) (S : Finset Nat) (X : Set Nat) : Prop :=
  ∀ n ∈ S, n ∉ X → ∀ N, F.memory n = some N → N.IsMutable = false →
    Immutable F N.left ∧ Immutable F N.right

/-- While an operation creates nodes, all of them are alive. -/
structure Constructing (F : ImutAVLFactory α) (S : Finset Nat) (P : Nat → Nat) : Prop
    extends Valid F S P where
  created : ∀ n ∈ F.createdNodes, n ∈ S
  closed : Closed F S ∅

/-- Nodes were created, and the others are as before but for their counts. -/
structure Grows (F : ImutAVLFactory α) (S : Finset Nat) (F' : ImutAVLFactory α)
    (S' : Finset Nat) : Prop where
  sub : S ⊆ S'
  same : ∀ n ∈ S, ∀ N, F.memory n = some N → ∃ c, F'.memory n = some { N with refCount := c }

theorem alive_none : Alive S none := fun _ h => nomatch h

theorem alive_some {n : Nat} (h : n ∈ S) : Alive S (some n) := fun _ heq => some.inj heq ▸ h

theorem Alive.mono (h : Alive S p) (hsub : S ⊆ S') : Alive S' p :=
  fun n hn => hsub (h n hn)

theorem Valid.alive (h : Valid F S P) {T : Nat} {N : ImutAVLTree α} (hT : T ∈ S)
    (hmem : F.memory T = some N) : Alive S N.left ∧ Alive S N.right := by
  obtain ⟨N', hmem', hl, hr, -⟩ := h.reads T hT
  obtain rfl := some.inj (hmem.symm.trans hmem')
  exact ⟨hl, hr⟩

theorem Grows.refl (F : ImutAVLFactory α) (S : Finset Nat) : Grows F S F S :=
  ⟨fun _ h => h, fun _ _ N h => ⟨N.refCount, h⟩⟩

theorem Grows.trans {F'' : ImutAVLFactory α} {S'' : Finset Nat} (h : Grows F S F' S')
    (h' : Grows F' S' F'' S'') : Grows F S F'' S'' := by
  refine ⟨fun n hn => h'.sub (h.sub hn), fun n hn N hmem => ?_⟩
  obtain ⟨c, hc⟩ := h.same n hn N hmem
  obtain ⟨c', hc'⟩ := h'.same n (h.sub hn) _ hc
  exact ⟨c', hc'⟩

theorem Holds.of_same (h : Holds F p t) (hp : Alive S p)
    (hclosed : ∀ n ∈ S, ∀ N, F.memory n = some N → Alive S N.left ∧ Alive S N.right)
    (hsame : ∀ n ∈ S, ∀ N, F.memory n = some N → ∃ c, F'.memory n = some { N with refCount := c }) :
    Holds F' p t := by
  induction h with
  | nil => exact .nil
  | @node T N l r hmem hleft hright hheight ihl ihr =>
    have hT := hp T rfl
    obtain ⟨hal, har⟩ := hclosed T hT N hmem
    obtain ⟨c, hc⟩ := hsame T hT N hmem
    exact .node (N := { N with refCount := c }) hc (ihl hal) (ihr har) hheight

theorem Holds.grows (h : Holds F p t) (hV : Valid F S P)
    (hp : Alive S p) (hg : Grows F S F' S') : Holds F' p t :=
  h.of_same hp (fun _ hn _ hmem => hV.alive hn hmem) hg.same

theorem Immutable.grows (h : Immutable F p) (hV : Valid F S P) (hp : Alive S p)
    (hg : Grows F S F' S') : Immutable F' p := by
  intro T N hT hmem
  obtain ⟨M, hM, -⟩ := hV.reads T (hp T hT)
  obtain ⟨c, hc⟩ := hg.same T (hp T hT) M hM
  obtain rfl := some.inj (hmem.symm.trans hc)
  exact h T M hT hM

/-! ## Creation of a node -/

/-- One reference more to the node of a pointer. -/
def bump (F : ImutAVLFactory α) (p : Option Nat) : ImutAVLFactory α :=
  { F with memory := fun n => (F.memory n).map fun N =>
      { N with refCount := N.refCount + if p = some n then 1 else 0 } }

theorem retain_eq (h : ∀ n, p = some n → (F.memory n).isSome) :
    F.retain p = some (F.bump p) := by
  cases p with
  | none =>
    unfold retain bump
    simp
  | some T =>
    obtain ⟨N, hN⟩ := isSome_iff_exists.mp (h T rfl)
    unfold retain bump write
    simp only [hN, bind_eq_bind, bind_some, Option.pure_def, Option.some.injEq]
    congr 1
    funext n
    rcases eq_or_ne n T with rfl | hne
    · simp [hN]
    · rw [update_of_ne hne]
      cases F.memory n with
      | none => rfl
      | some M => simp [hne.symm]

theorem pointers_map (o : Option (ImutAVLTree α)) (f : ImutAVLTree α → Nat) (n : Nat) :
    pointers (o.map fun N => { N with refCount := f N }) n = pointers o n := by
  cases o <;> rfl

theorem edges_bump (p : Option Nat) (n : Nat) : edges (F.bump p) S n = edges F S n :=
  sum_congr rfl fun m _ => pointers_map (F.memory m) _ n

theorem edges_write {T : Nat} (hT : T ∉ S) (N : ImutAVLTree α) (n : Nat) :
    edges (F.write T N) S n = edges F S n := by
  refine sum_congr rfl fun m hm => ?_
  have hne : m ≠ T := fun h => hT (h ▸ hm)
  simp [write, update_of_ne hne]

theorem Valid.edges_eq_zero (h : Valid F S P) {n : Nat} (hn : n ∉ S) : edges F S n = 0 := by
  refine sum_eq_zero fun m hm => ?_
  obtain ⟨N, hmem, hl, hr, -⟩ := h.reads m hm
  rw [hmem]
  have hne : N.left ≠ some n := fun heq => hn (hl n heq)
  have hne' : N.right ≠ some n := fun heq => hn (hr n heq)
  simp [pointers, hne, hne']

/-- What the creation of a node gives: the node of a tree that nothing refers to. -/
structure Made (F : ImutAVLFactory α) (S : Finset Nat) (P : Nat → Nat) (F' : ImutAVLFactory α)
    (S' : Finset Nat) (T : Nat) (t : SearchTree α) : Prop where
  constructing : Constructing F' S' P
  grows : Grows F S F' S'
  alive : T ∈ S'
  tree : Holds F' (some T) t
  unreferenced : ∃ N, F'.memory T = some N ∧ N.refCount = 0

theorem construct_spec {T : Nat} {height : Nat} (V : α)
    (h : Constructing F S P) (hT : T ∉ S) (hbound : T < F.allocated) (hfree : T ∉ F.freeNodes)
    (hL : Alive S L) (hR : Alive S R)
    (hl : Holds F L l) (hr : Holds F R r)
    (hheight : height = max l.height r.height + 1) :
    ∃ F', F.construct T L V R height = some F' ∧
      Made F S P { F' with createdNodes := F'.createdNodes ++ [T] } (insert T S) T
        (.node l V r) := by
  have hLT : L ≠ some T := fun heq => hT (hL T heq)
  have hRT : R ≠ some T := fun heq => hT (hR T heq)
  -- the memory after the three writes
  set N : ImutAVLTree α :=
    { left := L, right := R, height := height, IsMutable := true, value := V, refCount := 0 }
    with hN
  have hsome : ∀ n ∈ S, ((F.write T N).memory n).isSome := by
    intro n hn
    obtain ⟨M, hM, -⟩ := h.reads n hn
    have hne : n ≠ T := fun heq => hT (heq ▸ hn)
    simp [write, update_of_ne hne, hM]
  have hrun : F.construct T L V R height = some (((F.write T N).bump L).bump R) := by
    unfold construct
    simp only [← hN, bind_eq_bind]
    rw [retain_eq fun n hn => hsome n (hL n hn), bind_some]
    refine retain_eq fun n hn => ?_
    simpa [bump] using hsome n (hR n hn)
  refine ⟨_, hrun, ?_⟩
  set F₂ := ((F.write T N).bump L).bump R with hF₂
  have hold : ∀ n ∈ S, ∀ M, F.memory n = some M → F₂.memory n = some { M with
      refCount := M.refCount + (if L = some n then 1 else 0) + if R = some n then 1 else 0 } := by
    intro n hn M hM
    have hne : n ≠ T := fun heq => hT (heq ▸ hn)
    simp [hF₂, bump, write, update_of_ne hne, hM]
  have hnew : F₂.memory T = some N := by
    simp [hF₂, bump, write, hLT, hRT]
  have hgrows : Grows F S { F₂ with createdNodes := F₂.createdNodes ++ [T] } (insert T S) :=
    ⟨subset_insert T S, fun n hn M hM => ⟨_, hold n hn M hM⟩⟩
  have hedges : ∀ n, edges { F₂ with createdNodes := F₂.createdNodes ++ [T] } (insert T S) n =
      pointers (some N) n + edges F S n := by
    intro n
    have hinsert : edges F₂ (insert T S) n = pointers (F₂.memory T) n + edges F₂ S n :=
      sum_insert hT
    show edges F₂ (insert T S) n = _
    rw [hinsert, hnew, hF₂, edges_bump, edges_bump, edges_write hT]
  refine ⟨⟨⟨fun n hn => ?_, fun n hn => ?_, fun n hn => ?_, h.nodup, fun n hn => ?_⟩,
    fun n hn => ?_, fun n hn _ M hM himm => ?_⟩, hgrows, mem_insert_self T S, ?_, N, hnew,
    rfl⟩
  · rcases mem_insert.mp hn with rfl | hn
    · refine ⟨N, hnew, hL.mono hgrows.sub, hR.mono hgrows.sub, ?_⟩
      rw [hedges, h.edges_eq_zero hT]
      have hP : P n = 0 := Nat.eq_zero_of_not_pos fun hpos => hT (h.held n hpos)
      simp [pointers, hN, hLT, hRT, hP]
    · obtain ⟨M, hM, hal, har, hcount⟩ := h.reads n hn
      refine ⟨_, hold n hn M hM, hal.mono hgrows.sub, har.mono hgrows.sub, ?_⟩
      rw [hedges]
      simp only [pointers, hN, hcount]
      omega
  · rcases mem_insert.mp hn with rfl | hn
    · exact hbound
    · exact h.bound n hn
  · refine ⟨(h.free n hn).1, fun hmem => ?_⟩
    rcases mem_insert.mp hmem with rfl | hmem
    · exact hfree hn
    · exact (h.free n hn).2 hmem
  · exact hgrows.sub (h.held n hn)
  · rcases List.mem_append.mp hn with hn | hn
    · exact hgrows.sub (h.created n hn)
    · rw [List.mem_singleton.mp hn]
      exact mem_insert_self T S
  · rcases mem_insert.mp hn with rfl | hn
    · obtain rfl := some.inj (hnew.symm.trans hM)
      exact absurd himm (by simp [hN])
    · obtain ⟨M', hM', hal, har, -⟩ := h.reads n hn
      obtain rfl := some.inj ((hold n hn M' hM').symm.trans hM)
      obtain ⟨hil, hir⟩ := h.closed n hn (Set.notMem_empty n) M' hM' himm
      exact ⟨hil.grows h.toValid hal hgrows, hir.grows h.toValid har hgrows⟩
  · exact .node (N := N) hnew (hl.grows h.toValid hL hgrows) (hr.grows h.toValid hR hgrows) hheight

theorem createNode_spec (V : α) (h : Constructing F S P)
    (hL : Alive S L) (hR : Alive S R) (hl : Holds F L l) (hr : Holds F R r) :
    ∃ T F' S', F.createNode L V R = some (T, F') ∧ Made F S P F' S' T (.node l V r) := by
  unfold createNode
  simp only [hl.incrementHeight hr, bind_eq_bind, bind_some]
  cases hfree : F.freeNodes with
  | nil =>
    have hT : F.allocated ∉ S := fun hmem => Nat.lt_irrefl _ (h.bound _ hmem)
    have hV : Constructing { F with allocated := F.allocated + 1 } S P :=
      { reads := h.reads
        bound := fun n hn => Nat.lt_succ_of_lt (h.bound n hn)
        free := fun n hn => ⟨Nat.lt_succ_of_lt (h.free n hn).1, (h.free n hn).2⟩
        nodup := h.nodup
        held := h.held
        created := h.created
        closed := h.closed }
    have hG : Grows F S { F with allocated := F.allocated + 1 } S :=
      ⟨fun _ h => h, fun _ _ N hN => ⟨N.refCount, hN⟩⟩
    obtain ⟨F', hrun, hmade⟩ := construct_spec V hV hT (Nat.lt_succ_self _)
      (by rw [hfree]; exact List.not_mem_nil) hL hR (hl.grows h.toValid hL hG)
      (hr.grows h.toValid hR hG) rfl
    refine ⟨F.allocated, _, _, ?_, hmade.constructing, ⟨hmade.grows.sub, hmade.grows.same⟩,
      hmade.alive, hmade.tree, hmade.unreferenced⟩
    rw [hfree] at hrun
    simp [hrun]
  | cons T rest =>
    have hmem : T ∈ F.freeNodes := by rw [hfree]; exact List.mem_cons_self
    have hT : T ∉ S := (h.free T hmem).2
    have hnodup := h.nodup
    rw [hfree] at hnodup
    have hV : Constructing { F with freeNodes := rest } S P :=
      { reads := h.reads
        bound := h.bound
        free := fun n hn => h.free n (by rw [hfree]; exact List.mem_cons_of_mem T hn)
        nodup := (List.nodup_cons.mp hnodup).2
        held := h.held
        created := h.created
        closed := h.closed }
    have hG : Grows F S { F with freeNodes := rest } S :=
      ⟨fun _ h => h, fun _ _ N hN => ⟨N.refCount, hN⟩⟩
    obtain ⟨F', hrun, hmade⟩ := construct_spec V hV hT (h.free T hmem).1
      (List.nodup_cons.mp hnodup).1 hL hR (hl.grows h.toValid hL hG)
      (hr.grows h.toValid hR hG) rfl
    refine ⟨T, _, _, ?_, hmade.constructing, ⟨hmade.grows.sub, hmade.grows.same⟩,
      hmade.alive, hmade.tree, hmade.unreferenced⟩
    have hLT : some T ≠ L := fun heq => hT (hL T heq.symm)
    have hRT : some T ≠ R := fun heq => hT (hR T heq.symm)
    simp [hLT, hRT, hrun]

theorem Made.trans {F₁ F₂ : ImutAVLFactory α} {S₁ S₂ : Finset Nat} {T₁ T₂ : Nat}
    {t₁ t₂ : SearchTree α} (h₁ : Made F S P F₁ S₁ T₁ t₁) (h₂ : Made F₁ S₁ P F₂ S₂ T₂ t₂) :
    Made F S P F₂ S₂ T₂ t₂ :=
  { h₂ with grows := h₁.grows.trans h₂.grows }

theorem createNodeFrom_spec {T : Nat} {N : ImutAVLTree α}
    (hmem : F.memory T = some N) (h : Constructing F S P) (hL : Alive S L) (hR : Alive S R)
    (hl : Holds F L l) (hr : Holds F R r) :
    ∃ T' F' S', F.createNodeFrom L T R = some (T', F') ∧
      Made F S P F' S' T' (.node l N.value r) := by
  unfold createNodeFrom
  rw [hmem, bind_eq_bind, bind_some]
  exact createNode_spec N.value h hL hR hl hr

/-! ## Rotations -/

theorem balanceTree_spec (V : α) (h : Constructing F S P)
    (hL : Alive S L) (hR : Alive S R) (hl : Holds F L l) (hr : Holds F R r) :
    ∃ T F' S', F.balanceTree L V R = some (T, F') ∧ Made F S P F' S' T (l.balance V r) := by
  unfold balanceTree SearchTree.balance
  simp only [hl.getHeight, hr.getHeight, bind_eq_bind, bind_some]
  by_cases hleft : r.height + 2 < l.height
  · rw [if_pos hleft, if_pos hleft]
    obtain ⟨TL, NL, ll, lr, rfl, hmemL, hderefL, rfl, hll, hlr⟩ := hl.deref (by omega)
    have hTL := hL TL rfl
    obtain ⟨hall, halr⟩ := h.toValid.alive hTL hmemL
    simp only [hderefL, hll.getHeight, hlr.getHeight, bind_some]
    by_cases hsingle : lr.height ≤ ll.height
    · rw [if_pos hsingle, if_pos hsingle]
      obtain ⟨T₁, F₁, S₁, hrun₁, hmade₁⟩ := createNode_spec V h halr hR hlr hr
      obtain ⟨c, hmem₁⟩ := hmade₁.grows.same TL hTL NL hmemL
      obtain ⟨T₂, F₂, S₂, hrun₂, hmade₂⟩ := createNodeFrom_spec hmem₁ hmade₁.constructing
        (hall.mono hmade₁.grows.sub) (alive_some hmade₁.alive)
        (hll.grows h.toValid hall hmade₁.grows) hmade₁.tree
      refine ⟨T₂, F₂, S₂, ?_, hmade₁.trans hmade₂⟩
      simp [hrun₁, hrun₂]
    · rw [if_neg hsingle, if_neg hsingle]
      obtain ⟨TLR, NLR, lrl, lrr, heq, hmemLR, hderefLR, rfl, hlrl, hlrr⟩ := hlr.deref (by omega)
      have hTLR := halr TLR heq
      obtain ⟨halrl, halrr⟩ := h.toValid.alive hTLR hmemLR
      obtain ⟨T₁, F₁, S₁, hrun₁, hmade₁⟩ := createNodeFrom_spec hmemL h hall halrl hll hlrl
      obtain ⟨T₂, F₂, S₂, hrun₂, hmade₂⟩ := createNode_spec V hmade₁.constructing
        (halrr.mono hmade₁.grows.sub) (hR.mono hmade₁.grows.sub)
        (hlrr.grows h.toValid halrr hmade₁.grows) (hr.grows h.toValid hR hmade₁.grows)
      obtain ⟨c, hmem₂⟩ := (hmade₁.grows.trans hmade₂.grows).same TLR hTLR NLR hmemLR
      obtain ⟨T₃, F₃, S₃, hrun₃, hmade₃⟩ := createNodeFrom_spec hmem₂ hmade₂.constructing
        (alive_some (hmade₂.grows.sub hmade₁.alive)) (alive_some hmade₂.alive)
        (hmade₁.tree.grows hmade₁.constructing.toValid (alive_some hmade₁.alive) hmade₂.grows)
        hmade₂.tree
      refine ⟨T₃, F₃, S₃, ?_, (hmade₁.trans hmade₂).trans hmade₃⟩
      simp [hderefLR, hrun₁, hrun₂, hrun₃]
  rw [if_neg hleft, if_neg hleft]
  by_cases hright : l.height + 2 < r.height
  · rw [if_pos hright, if_pos hright]
    obtain ⟨TR, NR, rl, rr, rfl, hmemR, hderefR, rfl, hrl, hrr⟩ := hr.deref (by omega)
    have hTR := hR TR rfl
    obtain ⟨harl, harr⟩ := h.toValid.alive hTR hmemR
    simp only [hderefR, hrl.getHeight, hrr.getHeight, bind_some]
    by_cases hsingle : rl.height ≤ rr.height
    · rw [if_pos hsingle, if_pos hsingle]
      obtain ⟨T₁, F₁, S₁, hrun₁, hmade₁⟩ := createNode_spec V h hL harl hl hrl
      obtain ⟨c, hmem₁⟩ := hmade₁.grows.same TR hTR NR hmemR
      obtain ⟨T₂, F₂, S₂, hrun₂, hmade₂⟩ := createNodeFrom_spec hmem₁ hmade₁.constructing
        (alive_some hmade₁.alive) (harr.mono hmade₁.grows.sub) hmade₁.tree
        (hrr.grows h.toValid harr hmade₁.grows)
      refine ⟨T₂, F₂, S₂, ?_, hmade₁.trans hmade₂⟩
      simp [hrun₁, hrun₂]
    · rw [if_neg hsingle, if_neg hsingle]
      obtain ⟨TRL, NRL, rll, rlr, heq, hmemRL, hderefRL, rfl, hrll, hrlr⟩ := hrl.deref (by omega)
      have hTRL := harl TRL heq
      obtain ⟨harll, harlr⟩ := h.toValid.alive hTRL hmemRL
      obtain ⟨T₁, F₁, S₁, hrun₁, hmade₁⟩ := createNode_spec V h hL harll hl hrll
      obtain ⟨c₁, hmem₁⟩ := hmade₁.grows.same TR hTR NR hmemR
      obtain ⟨T₂, F₂, S₂, hrun₂, hmade₂⟩ := createNodeFrom_spec hmem₁ hmade₁.constructing
        (harlr.mono hmade₁.grows.sub) (harr.mono hmade₁.grows.sub)
        (hrlr.grows h.toValid harlr hmade₁.grows) (hrr.grows h.toValid harr hmade₁.grows)
      obtain ⟨c₂, hmem₂⟩ := (hmade₁.grows.trans hmade₂.grows).same TRL hTRL NRL hmemRL
      obtain ⟨T₃, F₃, S₃, hrun₃, hmade₃⟩ := createNodeFrom_spec hmem₂ hmade₂.constructing
        (alive_some (hmade₂.grows.sub hmade₁.alive)) (alive_some hmade₂.alive)
        (hmade₁.tree.grows hmade₁.constructing.toValid (alive_some hmade₁.alive) hmade₂.grows)
        hmade₂.tree
      refine ⟨T₃, F₃, S₃, ?_, (hmade₁.trans hmade₂).trans hmade₃⟩
      simp [hderefRL, hrun₁, hrun₂, hrun₃]
  · rw [if_neg hright, if_neg hright]
    exact createNode_spec V h hL hR hl hr

end Zapcc.ADT.ImutAVLFactory
