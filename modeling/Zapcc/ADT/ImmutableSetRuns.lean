import Zapcc.ADT.ImmutableSetEquality
import Zapcc.ADT.ImmutableSetRecovery

/-!
# Runs of a factory

The trees that a client has obtained are never changed: `run_persistent` is about all sequences of
calls, each of which adds a value to one of these trees or removes a value from it.
-/

namespace Zapcc.ADT.ImutAVLFactory

open RelaxedAVL

variable {α : Type} {F F' : ImutAVLFactory α} {S S' : Finset Nat} {P : Nat → Nat}

/-! ## The end of an operation -/

/-- The memory between two operations. -/
structure Settled (F : ImutAVLFactory α) (S : Finset Nat) (P : Nat → Nat) : Prop
    extends Valid F S P where
  closed : Closed F S ∅
  finished : F.createdNodes = []

theorem Settled.constructing (h : Settled F S P) : Constructing F S P :=
  ⟨h.toValid, fun n hn => absurd hn (by simp [h.finished]), h.closed⟩

/-- A pointer that a client holds, if it is one to a node. -/
def Held (P : Nat → Nat) (p : Option Nat) : Prop := ∀ n, p = some n → 0 < P n

variable {p : Option Nat} {t : SearchTree α}

theorem Valid.alive_of_held (h : Valid F S P) (hp : Held P p) : Alive S p :=
  fun n hn => h.held n (hp n hn)

theorem Valid.clear (h : Valid F S P) : Valid { F with createdNodes := [] } S P :=
  ⟨h.reads, h.bound, h.free, h.nodup, h.held⟩

theorem Freed.clear (h : Freed F S P F' S') :
    Freed F S P { F' with createdNodes := [] } S' :=
  ⟨h.valid.clear, h.sub, h.same, h.outside, h.immutable, h.freed, h.allocated⟩

theorem Freed.same_of (h : Freed F S P F' S') (hV : Valid F S P) {n : Nat} (hn : n ∈ S')
    {N' : ImutAVLTree α} (hN' : F'.memory n = some N') :
    ∃ N, F.memory n = some N ∧ N' = { N with refCount := N'.refCount } := by
  obtain ⟨N, hN, -⟩ := hV.reads n (h.sub hn)
  obtain ⟨c, hc⟩ := h.same n hn N hN
  obtain rfl := Option.some.inj (hc.symm.trans hN')
  exact ⟨N, hN, rfl⟩

theorem Holds.freed (h : Holds F p t)
    (hfreed : Freed F S P F' S') (hp : Alive S' p) : Holds F' p t := by
  refine h.of_same hp (fun n hn N hN => ?_) hfreed.same
  obtain ⟨c, hc⟩ := hfreed.same n hn N hN
  exact hfreed.valid.alive (N := { N with refCount := c }) hn hc

theorem Immutable.freed (h : Immutable F p) (hV : Valid F S P)
    (hfreed : Freed F S P F' S') (hp : Alive S' p) : Immutable F' p := by
  intro T N' hT hN'
  obtain ⟨N, hN, heq⟩ := hfreed.same_of hV (hp T hT) hN'
  rw [heq]
  exact h T N hT hN

theorem Closed.freed (h : Closed F S ∅) (hV : Valid F S P) (hfreed : Freed F S P F' S') :
    Closed F' S' ∅ := by
  intro n hn hX N' hN' himm
  obtain ⟨N, hN, heq⟩ := hfreed.same_of hV hn hN'
  obtain ⟨hal, har⟩ := hfreed.valid.alive hn hN'
  rw [heq] at himm hal har ⊢
  obtain ⟨hil, hir⟩ := h n (hfreed.sub hn) hX N hN himm
  exact ⟨hil.freed hV hfreed hal, hir.freed hV hfreed har⟩

/-- The trees that a client holds are as before. -/
def KeepsHeld (F : ImutAVLFactory α) (P : Nat → Nat) (F' : ImutAVLFactory α) : Prop :=
  ∀ p t, Held P p → Holds F p t → Immutable F p → Holds F' p t ∧ Immutable F' p

/-- What an operation on a held tree gives. -/
structure Finishes (F : ImutAVLFactory α) (P : Nat → Nat) (F' : ImutAVLFactory α) (S' : Finset Nat)
    (q : Option Nat) (t : SearchTree α) : Prop where
  settled : Settled F' S' P
  alive : Alive S' q
  tree : Holds F' q t
  immutable : Immutable F' q
  keeps : KeepsHeld F P F'

theorem finish_spec {q : Option Nat} (h : Constructing F S P) (hq : Alive S q)
    (ht : Holds F q t) (hroot : Unreferenced F q ∨ q = none ∨
      ∃ T N, 0 < P T ∧ F.memory T = some N ∧ (q = N.left ∨ q = N.right)) :
    ∃ F' S', F.finish q = some (q, F') ∧ Finishes F P F' S' q t := by
  obtain ⟨M, hmark, hclosed, himm⟩ := markImmutable_spec h.toValid hq ht h.closed
    (ht.height_lt_pathFuel h.toValid hq).le
  have hV := h.toValid.mark M
  obtain ⟨F₂, S₂, hrun, hfreed₂, hkept⟩ := recoverLoop_spec F.createdNodes hV fun T hT =>
    .inl (h.created T hT)
  have hfreed := hfreed₂.clear
  have halive : Alive S₂ q := by
    intro n hn
    rcases hroot with ⟨T, N, rfl, hmem, hcount⟩ | rfl | ⟨T, N, hheld, hmem, hchild⟩
    · obtain rfl := Option.some.inj hn
      have hmem₁ := mark_memory (M := M) hmem
      exact (hkept T (hq T rfl) _ hmem₁ hcount (himm T _ rfl hmem₁)).1
    · exact nomatch hn
    · have hT₂ := hfreed₂.valid.held T hheld
      obtain ⟨c, hc⟩ := hfreed₂.same T hT₂ _ (mark_memory (M := M) hmem)
      obtain ⟨hal, har⟩ := hfreed₂.valid.alive hT₂ hc
      rcases hchild with rfl | rfl
      · exact hal n hn
      · exact har n hn
  refine ⟨{ F₂ with createdNodes := [] }, S₂, ?_,
    { settled := ⟨hfreed.valid, hclosed.freed hV hfreed, rfl⟩
      alive := halive
      tree := (ht.mark M).freed hfreed halive
      immutable := himm.freed hV hfreed halive
      keeps := fun p s hp hs hps => ?_ }⟩
  · have hloop : (F.mark M).createdNodes.foldlM recoverNode (F.mark M) = some F₂ := hrun
    unfold finish recoverNodes
    simp [hmark, hloop]
  · have hp₂ := hfreed.valid.alive_of_held hp
    exact ⟨(hs.mark M).freed hfreed hp₂, (hps.mark M).freed hV hfreed hp₂⟩

theorem Finishes.of_grows {F₁ : ImutAVLFactory α} {S₁ : Finset Nat} {q : Option Nat}
    (h : Finishes F₁ P F' S' q t) (hV : Valid F S P)
    (hg : Grows F S F₁ S₁) : Finishes F P F' S' q t := by
  refine { h with keeps := fun p s hp hs hps => ?_ }
  have hal := hV.alive_of_held hp
  exact h.keeps p s hp (hs.grows hV hal hg) (hps.grows hV hal hg)

section Operations

variable [LinearOrder α]

theorem add_spec (V : α) (h : Settled F S P) (hp : Held P p)
    (ht : Holds F p t) (himm : Immutable F p) :
    ∃ q F' S', F.add p V = some (q, F') ∧ Finishes F P F' S' q (t.insert V) := by
  have hal := h.toValid.alive_of_held hp
  obtain ⟨T, F₁, S₁, hrun, hmade⟩ := add_internal_spec V h.constructing hal ht himm
    (ht.height_lt_pathFuel h.toValid hal)
  obtain ⟨F₂, S₂, hfinish, hfinishes⟩ := finish_spec hmade.constructing (alive_some hmade.alive)
    hmade.tree (.inl hmade.unreferencedRoot)
  refine ⟨some T, F₂, S₂, ?_, hfinishes.of_grows h.toValid hmade.grows⟩
  unfold add
  simp [hrun, hfinish]

theorem remove_spec (V : α) (h : Settled F S P) (hp : Held P p)
    (ht : Holds F p t) (himm : Immutable F p) :
    ∃ q F' S', F.remove p V = some (q, F') ∧ Finishes F P F' S' q (t.remove V) := by
  have hal := h.toValid.alive_of_held hp
  obtain ⟨q, F₁, S₁, hrun, hgives, hroot⟩ := remove_internal_spec V h.constructing hal ht himm
    (ht.height_lt_pathFuel h.toValid hal)
  have hroot₁ : Unreferenced F₁ q ∨ q = none ∨
      ∃ T N, 0 < P T ∧ F₁.memory T = some N ∧ (q = N.left ∨ q = N.right) := by
    refine hroot.imp_right (Or.imp_right ?_)
    rintro ⟨T, N, rfl, hmem, hchild⟩
    obtain ⟨c, hc⟩ := hgives.grows.same T (hal T rfl) N hmem
    exact ⟨T, _, hp T rfl, hc, hchild⟩
  obtain ⟨F₂, S₂, hfinish, hfinishes⟩ := finish_spec hgives.constructing hgives.alive hgives.tree
    hroot₁
  refine ⟨q, F₂, S₂, ?_, hfinishes.of_grows h.toValid hgives.grows⟩
  unfold remove
  simp [hrun, hfinish]

end Operations

/-! ## Handles -/

theorem bump_memory {n : Nat} {N : ImutAVLTree α} (h : F.memory n = some N) :
    (F.bump p).memory n = some { N with refCount := N.refCount + if p = some n then 1 else 0 } := by
  simp [bump, h]

theorem Settled.bump {q : Option Nat} (h : Settled F S P) (hq : Alive S q) :
    F.retain q = some (F.bump q) ∧ Settled (F.bump q) S (plus P q) ∧ Grows F S (F.bump q) S := by
  have hgrows : Grows F S (F.bump q) S := ⟨fun _ hn => hn, fun n _ N hN => ⟨_, bump_memory hN⟩⟩
  refine ⟨retain_eq fun n hn => ?_, ⟨⟨fun n hn => ?_, h.bound, h.free, h.nodup, fun n hn => ?_⟩,
    fun n hn hX N' hN' himm => ?_, h.finished⟩, hgrows⟩
  · obtain ⟨N, hN, -⟩ := h.reads n (hq n hn)
    simp [hN]
  · obtain ⟨N, hN, hal, har, hcount⟩ := h.reads n hn
    refine ⟨_, bump_memory hN, hal, har, ?_⟩
    rw [edges_bump]
    simp only [plus]
    omega
  · by_cases heq : q = some n
    · exact hq n heq
    · refine h.held n ?_
      simpa [plus, heq] using hn
  · obtain ⟨N, hN, hal, har, -⟩ := h.reads n hn
    obtain rfl := Option.some.inj ((bump_memory hN).symm.trans hN')
    obtain ⟨hil, hir⟩ := h.closed n hn hX N hN himm
    exact ⟨hil.grows h.toValid hal hgrows, hir.grows h.toValid har hgrows⟩

end ImutAVLFactory

/-! ## Runs -/

namespace ImmutableSet

open RelaxedAVL ImutAVLFactory

variable {α : Type} [LinearOrder α]

/-- A call on the `i`-th tree that was obtained. -/
inductive Call (α : Type) where
  | add (i : Nat) (V : α)
  | remove (i : Nat) (V : α)

/-- A factory, and the roots of the sets that a client holds. -/
structure Session (α : Type) where
  factory : ImutAVLFactory α
  roots : List (Option Nat)

def Session.hold (F : ImutAVLFactory α) (roots : List (Option Nat)) (T : Option Nat) :
    Option (Session α) := do
  let F ← F.retain T
  return { factory := F, roots := roots ++ [T] }

def Call.apply (s : Session α) : Call α → Option (Session α)
  | .add i V => do
      let T ← s.roots[i]?
      let (T, F) ← s.factory.add T V
      Session.hold F s.roots T
  | .remove i V => do
      let T ← s.roots[i]?
      let (T, F) ← s.factory.remove T V
      Session.hold F s.roots T

/-- Calls, first of all on the empty set. -/
def run (calls : List (Call α)) : Option (Session α) :=
  calls.foldlM Call.apply { factory := empty, roots := [none] }

/-- The set that a call should give, behind the ones before. -/
def Call.update (sets : List (Finset α)) : Call α → Option (List (Finset α))
  | .add i V => sets[i]?.map fun A => sets ++ [insert V A]
  | .remove i V => sets[i]?.map fun A => sets ++ [A.erase V]

def contents (calls : List (Call α)) : Option (List (Finset α)) :=
  calls.foldlM Call.update [∅]

/-- The tree of a set: a search tree without duplicates whose nodes hold their heights, the heights
of siblings differ by at most 2, and the values are those of the set. -/
def Represents (F : ImutAVLFactory α) (p : Option Nat) (A : Finset α) : Prop :=
  ∃ t, Holds F p t ∧ t.Ordered ∧ t.Balanced ∧ ∀ x, x ∈ t.toList ↔ x ∈ A

/-- The trees of a session represent some sets, and two of them are found equal exactly if the sets
are. -/
structure Faithful (s : Session α) (sets : List (Finset α)) : Prop where
  represents : List.Forall₂ (Represents s.factory) s.roots sets
  equality : ∀ (i j : Nat) (p q : Option Nat) (A B : Finset α), s.roots[i]? = some p →
    s.roots[j]? = some q → sets[i]? = some A → sets[j]? = some B →
    ∃ bound, ∀ fuel, bound ≤ fuel → isEqual fuel s.factory p q = some (decide (A = B))

/-- The references of a client. -/
def handles (roots : List (Option Nat)) (n : Nat) : Nat := roots.count (some n)

/-- What holds of a session after each call. -/
def Sound (s : Session α) (sets : List (Finset α)) : Prop :=
  (∃ S, Settled s.factory S (handles s.roots)) ∧
    List.Forall₂ (fun p A => Represents s.factory p A ∧ Immutable s.factory p) s.roots sets

theorem held_of_mem {roots : List (Option Nat)} (h : p ∈ roots) :
    Held (handles roots) p := by
  rintro n rfl
  exact List.count_pos_iff.mpr h

theorem handles_append (roots : List (Option Nat)) (q : Option Nat) :
    handles (roots ++ [q]) = plus (handles roots) q := by
  funext n
  unfold handles plus
  rw [List.count_append, List.count_singleton]
  simp

theorem exists_of_forall₂ {β γ : Type} {R : β → γ → Prop} {l : List β} {m : List γ}
    (h : List.Forall₂ R l m) {i : Nat} {c : γ} (hi : m[i]? = some c) :
    ∃ b, l[i]? = some b ∧ R b c := by
  induction h generalizing i with
  | nil => simp at hi
  | @cons b c' l m hhead htail ih =>
    cases i with
    | zero =>
      obtain rfl := Option.some.inj hi
      exact ⟨b, rfl, hhead⟩
    | succ i => exact ih hi

theorem hold_spec {s : Session α} {sets : List (Finset α)} {F' : ImutAVLFactory α}
    {S' : Finset Nat} {q : Option Nat} {A : Finset α}
    (hsets : List.Forall₂ (fun p A => Represents s.factory p A ∧ Immutable s.factory p) s.roots
      sets)
    (h : Finishes s.factory (handles s.roots) F' S' q t) (hordered : t.Ordered)
    (hbalanced : t.Balanced) (hmem : ∀ x, x ∈ t.toList ↔ x ∈ A) :
    ∃ s', Session.hold F' s.roots q = some s' ∧ s'.roots = s.roots ++ [q] ∧
      Sound s' (sets ++ [A]) := by
  obtain ⟨hretain, hsettled, hgrows⟩ := h.settled.bump h.alive
  refine ⟨{ factory := F'.bump q, roots := s.roots ++ [q] }, by simp [Session.hold, hretain], rfl,
    ⟨S', by rw [handles_append]; exact hsettled⟩, ?_⟩
  have hV := h.settled.toValid
  refine List.rel_append ?_ (.cons ⟨⟨t, h.tree.grows hV h.alive hgrows, hordered, hbalanced, hmem⟩,
    h.immutable.grows hV h.alive hgrows⟩ .nil)
  have hheld : ∀ p ∈ s.roots, Held (handles s.roots) p := fun p hp => held_of_mem hp
  refine ((List.forall₂_and_left _ _).mpr ⟨hheld, hsets⟩).imp ?_
  rintro p B ⟨hp, ⟨u, hu, hprops⟩, himm⟩
  obtain ⟨hu', himm'⟩ := h.keeps p u hp hu himm
  have hal := hV.alive_of_held hp
  exact ⟨⟨u, hu'.grows hV hal hgrows, hprops⟩, himm'.grows hV hal hgrows⟩

theorem apply_spec {s : Session α} {sets sets' : List (Finset α)} (call : Call α)
    (h : Sound s sets) (hcall : call.update sets = some sets') :
    ∃ s', call.apply s = some s' ∧ Sound s' sets' ∧ s.roots <+: s'.roots ∧ sets <+: sets' := by
  obtain ⟨⟨S, hsettled⟩, hsets⟩ := h
  cases call with
  | add i V =>
    obtain ⟨A, hA, rfl⟩ := Option.map_eq_some_iff.mp hcall
    obtain ⟨p, hp, ⟨t, ht, hordered, hbalanced, hmem⟩, himm⟩ := exists_of_forall₂ hsets hA
    obtain ⟨q, F', S', hrun, hfinishes⟩ := add_spec V hsettled
      (held_of_mem (List.mem_of_getElem? hp)) ht himm
    obtain ⟨s', hhold, hroots, hsound⟩ := hold_spec (A := insert V A) hsets hfinishes
      (hordered.insert V) (hbalanced.insert V).1 fun x => by
        rw [SearchTree.mem_insert, Finset.mem_insert, hmem]
    refine ⟨s', ?_, hsound, hroots ▸ List.prefix_append _ _, List.prefix_append _ _⟩
    simp [Call.apply, hp, hrun, hhold]
  | remove i V =>
    obtain ⟨A, hA, rfl⟩ := Option.map_eq_some_iff.mp hcall
    obtain ⟨p, hp, ⟨t, ht, hordered, hbalanced, hmem⟩, himm⟩ := exists_of_forall₂ hsets hA
    obtain ⟨q, F', S', hrun, hfinishes⟩ := remove_spec V hsettled
      (held_of_mem (List.mem_of_getElem? hp)) ht himm
    obtain ⟨s', hhold, hroots, hsound⟩ := hold_spec (A := A.erase V) hsets hfinishes
      (hordered.remove V) (hbalanced.remove V).1 fun x => by
        rw [SearchTree.mem_remove hordered, Finset.mem_erase, hmem]
    refine ⟨s', ?_, hsound, hroots ▸ List.prefix_append _ _, List.prefix_append _ _⟩
    simp [Call.apply, hp, hrun, hhold]

theorem apply_all_spec {s : Session α} {sets sets' : List (Finset α)} (calls : List (Call α))
    (h : Sound s sets) (hcalls : calls.foldlM Call.update sets = some sets') :
    ∃ s', calls.foldlM Call.apply s = some s' ∧ Sound s' sets' ∧ s.roots <+: s'.roots ∧
      sets <+: sets' := by
  induction calls generalizing s sets with
  | nil =>
    obtain rfl := Option.some.inj hcalls
    exact ⟨s, rfl, h, List.prefix_rfl, List.prefix_rfl⟩
  | cons call calls ih =>
    obtain ⟨sets₁, hupdate, hrest⟩ := Option.bind_eq_some_iff.mp hcalls
    obtain ⟨s₁, happly, hsound₁, hroots₁, hsets₁⟩ := apply_spec call h hupdate
    obtain ⟨s', hrun, hsound', hroots', hsets'⟩ := ih hsound₁ hrest
    refine ⟨s', ?_, hsound', hroots₁.trans hroots', hsets₁.trans hsets'⟩
    rw [List.foldlM_cons, happly]
    exact hrun

theorem Sound.faithful {s : Session α} {sets : List (Finset α)} (h : Sound s sets) :
    Faithful s sets := by
  refine ⟨h.2.imp fun p A hp => hp.1, fun i j p q A B hp hq hA hB => ?_⟩
  obtain ⟨p', hp', ⟨u, hu, hou, -, hmu⟩, -⟩ := exists_of_forall₂ h.2 hA
  obtain ⟨q', hq', ⟨v, hv, hov, -, hmv⟩, -⟩ := exists_of_forall₂ h.2 hB
  obtain rfl := Option.some.inj (hp.symm.trans hp')
  obtain rfl := Option.some.inj (hq.symm.trans hq')
  refine ⟨4 * (u.toList.length + v.toList.length), fun fuel hfuel => ?_⟩
  rw [ImmutableSet_isEqual_spec hu hv hfuel, Option.some.injEq, decide_eq_decide]
  constructor
  · intro heq
    ext x
    rw [← hmu, ← hmv, heq]
  · rintro rfl
    exact SearchTree.toList_eq_of_mem_iff hou hov fun x => (hmu x).trans (hmv x).symm

theorem sound_start : Sound ({ factory := empty, roots := [none] } : Session α) [∅] := by
  refine ⟨⟨∅, ⟨⟨fun n hn => absurd hn (Finset.notMem_empty n),
    fun n hn => absurd hn (Finset.notMem_empty n), fun n hn => absurd hn List.not_mem_nil,
    List.nodup_nil, fun n hn => absurd hn ?_⟩, fun n hn => absurd hn (Finset.notMem_empty n), rfl⟩⟩,
    .cons ⟨⟨.nil, .nil, List.Pairwise.nil, trivial, fun x => by simp⟩,
      fun T N hT => nomatch hT⟩ .nil⟩
  simp [handles]

/-- After any calls every tree that was obtained represents the set that it should, also after more
of them, and two trees are found equal exactly if their sets are. -/
theorem run_persistent (calls more : List (Call α)) {sets' : List (Finset α)}
    (h : contents (calls ++ more) = some sets') :
    ∃ sets s s', contents calls = some sets ∧ run calls = some s ∧ run (calls ++ more) = some s' ∧
      Faithful s sets ∧ Faithful s' sets' ∧ s.roots <+: s'.roots ∧ sets <+: sets' := by
  unfold contents at h
  rw [List.foldlM_append] at h
  obtain ⟨sets, hcalls, hmore⟩ := Option.bind_eq_some_iff.mp h
  obtain ⟨s, hrun, hsound, -, -⟩ := apply_all_spec calls sound_start hcalls
  obtain ⟨s', hrun', hsound', hroots, hsets⟩ := apply_all_spec more hsound hmore
  refine ⟨sets, s, s', hcalls, hrun, ?_, hsound.faithful, hsound'.faithful, hroots, hsets⟩
  unfold run
  rw [List.foldlM_append, hrun]
  exact hrun'

theorem run_persistent_example :
    ∃ sets s s', contents [Call.add 0 5] = some sets ∧ run [Call.add 0 5] = some s ∧
      run ([Call.add 0 5] ++ [Call.add 1 3, Call.remove 2 5]) = some s' ∧ Faithful s sets ∧
      Faithful s' [∅, {5}, {3, 5}, {3}] ∧ s.roots <+: s'.roots ∧
      sets <+: [∅, {5}, {3, 5}, {3}] :=
  run_persistent [Call.add 0 5] [Call.add 1 3, Call.remove 2 5] (by decide)

/-! ## Membership -/

theorem find_spec {F : ImutAVLFactory α} {p : Option Nat} {t : SearchTree α} (ht : Holds F p t)
    (hordered : t.Ordered) (K : α) {fuel : Nat} (hfuel : t.height ≤ fuel) :
    ∃ q, F.find fuel p K = some q ∧ (q.isSome ↔ K ∈ t.toList) := by
  induction ht generalizing fuel with
  | nil => exact ⟨none, by cases fuel <;> rfl, by simp⟩
  | @node T N l r hmem hleft hright hheight ihl ihr =>
    rw [SearchTree.height_node] at hfuel
    obtain ⟨fuel, rfl⟩ : ∃ k, fuel = k + 1 := ⟨fuel - 1, by omega⟩
    obtain ⟨hl, hr, hlv, hvr⟩ := SearchTree.ordered_node_iff.mp hordered
    have hstep : F.find (fuel + 1) (some T) K =
        if K = N.value then some (some T)
        else if K < N.value then F.find fuel N.left K
        else F.find fuel N.right K := by
      simp [find, hmem]
    rw [hstep, SearchTree.toList_node, List.mem_append, List.mem_cons]
    rcases lt_trichotomy K N.value with hlt | rfl | hgt
    · have hright : K ∉ r.toList := fun hK => (hvr K hK).not_gt hlt
      rw [if_neg hlt.ne, if_pos hlt]
      simpa [hlt.ne, hright] using ihl hl (by omega)
    · exact ⟨some T, by simp, by simp⟩
    · have hleft : K ∉ l.toList := fun hK => (hlv K hK).not_gt hgt
      rw [if_neg hgt.ne', if_neg hgt.not_gt]
      simpa [hgt.ne', hleft] using ihr hr (by omega)

/-- The search finds exactly the values of each set, and the number of nodes that it looks at is
logarithmic in the size of the set. -/
def Searchable (s : Session α) (sets : List (Finset α)) : Prop :=
  ∀ (i : Nat) (A : Finset α) (V : α) (fuel : Nat), sets[i]? = some A →
    Nat.log2 ((A.card + 1) ^ 2) ≤ fuel →
    ∃ p, s.roots[i]? = some p ∧ contains fuel s.factory p V = some (decide (V ∈ A))

/-- After any calls each set that was obtained is searched correctly. -/
theorem run_contains (calls : List (Call α)) {sets : List (Finset α)}
    (h : contents calls = some sets) :
    ∃ s, run calls = some s ∧ s.roots.length = sets.length ∧ Searchable s sets := by
  obtain ⟨s, hrun, hsound, -, -⟩ := apply_all_spec calls sound_start h
  refine ⟨s, hrun, hsound.2.length_eq, fun i A V fuel hA hfuel => ?_⟩
  obtain ⟨p, hp, ⟨t, ht, hordered, hbalanced, hmem⟩, -⟩ := exists_of_forall₂ hsound.2 hA
  have hcard : t.toList.length = A.card := by
    rw [← List.toFinset_card_of_nodup (hordered.imp ne_of_lt)]
    exact congrArg Finset.card (Finset.ext fun x => by rw [List.mem_toFinset, hmem])
  have hheight : t.height ≤ Nat.log2 ((A.card + 1) ^ 2) := by
    rw [Nat.le_log2 (Nat.pow_pos (Nat.succ_pos _)).ne', ← hcard]
    exact hbalanced.pow_height_le
  obtain ⟨q, hfind, hq⟩ := find_spec ht hordered V (hheight.trans hfuel)
  refine ⟨p, hp, ?_⟩
  rw [contains, hfind, Option.map_some, Option.some.injEq, ← Bool.decide_coe q.isSome,
    decide_eq_decide, hq, hmem]

theorem run_contains_three :
    ∃ s, run [Call.add 0 5, Call.add 1 3, Call.remove 2 5] = some s ∧
      s.roots.length = 4 ∧ Searchable s [∅, {5}, {3, 5}, {3}] :=
  @run_contains Nat _ [.add 0 5, .add 1 3, .remove 2 5] [∅, {5}, {3, 5}, {3}] (by decide)

end ImmutableSet

end Zapcc.ADT
