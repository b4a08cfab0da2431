import Mathlib.Algebra.Order.BigOperators.Group.Finset

/-!
# The iterator in post-order

`po_iterator` is a depth-first search with an explicit stack, which visits a node after its
children. `post_order_spec` says that it visits each reachable node once.
-/

namespace Zapcc.ADT

open List

/-- The iterator: the visited nodes, and the stack of the nodes with their next children. The back
of the stack is the head of its list. -/
structure po_iterator (V : Type*) where
  Visited : Finset V
  VisitStack : List (V × List V)

namespace po_iterator

variable {V : Type*} [DecidableEq V] (children : V → List V)

/-- The children that the search can still look at, with a step for each node. -/
def work [Fintype V] (it : po_iterator V) : Nat :=
  ∑ v ∈ Finset.univ \ it.Visited, ((children v).length + 2) +
    (it.VisitStack.flatMap fun e => e.1 :: e.2).length

/-- The step of `traverseChild` that takes the next child. -/
def visitChild (it : po_iterator V) (N BB : V) (rest : List V) (below : List (V × List V)) :
    po_iterator V :=
  if BB ∈ it.Visited then { it with VisitStack := (N, rest) :: below }
  else ⟨insert BB it.Visited, (BB, children BB) :: (N, rest) :: below⟩

theorem work_visitChild [Fintype V] {it : po_iterator V} {N BB : V} {rest : List V}
    {below : List (V × List V)} (h : it.VisitStack = (N, BB :: rest) :: below) :
    (it.visitChild children N BB rest below).work children < it.work children := by
  unfold visitChild work
  split_ifs with hBB
  · rw [h]
    simp
  · have herase : (Finset.univ \ insert BB it.Visited) = (Finset.univ \ it.Visited).erase BB := by
      ext v
      simp
    have hsum := Finset.add_sum_erase (Finset.univ \ it.Visited)
      (fun v => (children v).length + 2) (show BB ∈ Finset.univ \ it.Visited by simpa using hBB)
    rw [h, herase]
    simp only [flatMap_cons, length_append, length_cons]
    omega

/-- Look at the children of the top of the stack, until it has none left. -/
def traverseChild [Fintype V] (it : po_iterator V) : po_iterator V :=
  match _h : it.VisitStack with
  | (N, BB :: rest) :: below => (it.visitChild children N BB rest below).traverseChild
  | _ => it
termination_by it.work children
decreasing_by exact work_visitChild children _h

theorem work_traverseChild [Fintype V] (it : po_iterator V) :
    (it.traverseChild children).work children ≤ it.work children := by
  induction it using traverseChild.induct children with
  | case1 it N BB rest below h ih =>
    rw [traverseChild, h]
    exact ih.trans (work_visitChild children h).le
  | case2 it h =>
    rw [traverseChild]
    split
    · next N BB rest below heq => exact absurd heq (h N BB rest below)
    · exact Nat.le_refl _

/-- `operator++`. -/
def increment [Fintype V] (it : po_iterator V) : po_iterator V :=
  let it := { it with VisitStack := it.VisitStack.tail }
  if it.VisitStack = [] then it else it.traverseChild children

theorem work_increment [Fintype V] {it : po_iterator V} (h : it.VisitStack ≠ []) :
    (it.increment children).work children < it.work children := by
  have htail : work children { it with VisitStack := it.VisitStack.tail } < it.work children := by
    obtain ⟨top, below, heq⟩ := exists_cons_of_ne_nil h
    unfold work
    rw [heq]
    simp only [tail_cons, flatMap_cons, length_append, length_cons]
    omega
  unfold increment
  dsimp only
  split_ifs
  · exact htail
  · exact (work_traverseChild children _).trans_lt htail

/-- The nodes from this one on. -/
def nodes [Fintype V] (it : po_iterator V) : List V :=
  match _h : it.VisitStack with
  | [] => []
  | (N, _) :: _ => N :: (it.increment children).nodes
termination_by it.work children
decreasing_by exact work_increment children (by rw [_h]; exact cons_ne_nil _ _)

def begin [Fintype V] (BB : V) : po_iterator V :=
  traverseChild children ⟨{BB}, [(BB, children BB)]⟩

def post_order [Fintype V] (BB : V) : List V := (begin children BB).nodes children

/-! ## The search visits what is reachable -/

/-- The children of each node come before it. -/
def ChildrenFirst (done : List V) : Prop :=
  ∀ l v l', done = l ++ v :: l' → ∀ c ∈ children v, c ∈ l

/-- What holds when some nodes are done. -/
structure Searched (rank : V → Nat) (root : V) (done : List V) (it : po_iterator V) : Prop where
  nodup : (done ++ it.VisitStack.map Prod.fst).Nodup
  visited : ∀ v, v ∈ it.Visited ↔ v ∈ done ++ it.VisitStack.map Prod.fst
  root_visited : root ∈ it.Visited
  reachable : ∀ v ∈ it.Visited, Relation.ReflTransGen (fun v c => c ∈ children v) root v
  done_closed : ∀ v ∈ done, ∀ c ∈ children v, c ∈ it.Visited
  stack_closed : ∀ e ∈ it.VisitStack, ∀ c ∈ children e.1, c ∈ it.Visited ∨ c ∈ e.2
  stack_children : ∀ e ∈ it.VisitStack, ∀ c ∈ e.2, c ∈ children e.1
  ordered : (∀ v, ∀ c ∈ children v, rank v < rank c) →
    (it.VisitStack.map Prod.fst).Pairwise (fun a b => rank b < rank a) ∧ ChildrenFirst children done

variable {children} {rank : V → Nat} {root : V} {done : List V} {it : po_iterator V}

theorem Searched.visitChild {N BB : V} {rest : List V} {below : List (V × List V)}
    (hs : Searched children rank root done it) (h : it.VisitStack = (N, BB :: rest) :: below) :
    Searched children rank root done (it.visitChild children N BB rest below) := by
  have htop : (N, BB :: rest) ∈ it.VisitStack := by rw [h]; exact mem_cons_self
  have hbelow : ∀ e ∈ below, e ∈ it.VisitStack := fun e he => by
    rw [h]
    exact mem_cons_of_mem _ he
  have hBBchild : BB ∈ children N := hs.stack_children _ htop BB mem_cons_self
  have hrest : ∀ c ∈ rest, c ∈ children N := fun c hc =>
    hs.stack_children _ htop c (mem_cons_of_mem _ hc)
  have hN : N ∈ it.Visited :=
    (hs.visited N).mpr (mem_append_right _ (mem_map_of_mem htop))
  have hnames : ((N, rest) :: below).map Prod.fst = it.VisitStack.map Prod.fst := by rw [h]; rfl
  -- the child that is looked at is visited afterwards in both cases
  have hclosed : ∀ e ∈ (N, rest) :: below, ∀ c ∈ children e.1,
      c ∈ insert BB it.Visited ∨ c ∈ e.2 := by
    intro e he c hc
    rcases List.mem_cons.mp he with rfl | he
    · rcases hs.stack_closed _ htop c hc with hvisited | hleft
      · exact .inl (Finset.mem_insert_of_mem hvisited)
      · rcases List.mem_cons.mp hleft with rfl | hleft
        · exact .inl (Finset.mem_insert_self c _)
        · exact .inr hleft
    · exact (hs.stack_closed e (hbelow e he) c hc).imp_left Finset.mem_insert_of_mem
  have hchildren : ∀ e ∈ (N, rest) :: below, ∀ c ∈ e.2, c ∈ children e.1 := by
    intro e he
    rcases List.mem_cons.mp he with rfl | he
    · exact hrest
    · exact hs.stack_children e (hbelow e he)
  unfold po_iterator.visitChild
  split_ifs with hBB
  · rw [Finset.insert_eq_of_mem hBB] at hclosed
    exact ⟨by rw [hnames]; exact hs.nodup, by rw [hnames]; exact hs.visited, hs.root_visited,
      hs.reachable, hs.done_closed, hclosed, hchildren, by rw [hnames]; exact hs.ordered⟩
  · have hfresh : BB ∉ done ++ it.VisitStack.map Prod.fst := fun hmem =>
      hBB ((hs.visited BB).mpr hmem)
    refine ⟨?_, ?_, Finset.mem_insert_of_mem hs.root_visited, ?_, ?_, ?_, ?_, ?_⟩
    · rw [map_cons, hnames, nodup_middle]
      exact List.nodup_cons.mpr ⟨hfresh, hs.nodup⟩
    · intro v
      rw [map_cons, hnames, Finset.mem_insert, hs.visited v]
      simp only [mem_append, mem_cons]
      tauto
    · intro v hv
      rcases Finset.mem_insert.mp hv with rfl | hv
      · exact (hs.reachable N hN).tail hBBchild
      · exact hs.reachable v hv
    · exact fun v hv c hc => Finset.mem_insert_of_mem (hs.done_closed v hv c hc)
    · intro e he c hc
      rcases List.mem_cons.mp he with rfl | he
      · exact .inr hc
      · exact hclosed e he c hc
    · intro e he
      rcases List.mem_cons.mp he with rfl | he
      · exact fun c hc => hc
      · exact hchildren e he
    · intro hrank
      obtain ⟨hsorted, hfirst⟩ := hs.ordered hrank
      refine ⟨?_, hfirst⟩
      rw [← hnames, map_cons] at hsorted
      refine List.pairwise_cons.mpr ⟨fun v hv => ?_, hsorted⟩
      have hlast := hrank N BB hBBchild
      rcases List.mem_cons.mp hv with rfl | hv
      · exact hlast
      · exact ((List.pairwise_cons.mp hsorted).1 v hv).trans hlast

theorem Searched.traverseChild [Fintype V] (hs : Searched children rank root done it) :
    Searched children rank root done (it.traverseChild children) ∧
      ∀ top ∈ (it.traverseChild children).VisitStack.head?, top.2 = [] := by
  induction it using traverseChild.induct children with
  | case1 it N BB rest below h ih =>
    rw [po_iterator.traverseChild, h]
    exact ih (hs.visitChild h)
  | case2 it h =>
    rw [po_iterator.traverseChild]
    split
    · next N BB rest below heq => exact absurd heq (h N BB rest below)
    · refine ⟨hs, fun top htop => ?_⟩
      obtain ⟨N, rest⟩ := top
      obtain ⟨below, heq⟩ := List.head?_eq_some_iff.mp htop
      cases rest with
      | nil => rfl
      | cons BB rest => exact absurd heq (h N BB rest below)

theorem Searched.increment [Fintype V] {N : V} {below : List (V × List V)}
    (hs : Searched children rank root done it) (h : it.VisitStack = (N, []) :: below) :
    Searched children rank root (done ++ [N]) (it.increment children) ∧
      ∀ top ∈ (it.increment children).VisitStack.head?, top.2 = [] := by
  have htop : (N, []) ∈ it.VisitStack := by rw [h]; exact mem_cons_self
  have hbelow : ∀ e ∈ below, e ∈ it.VisitStack := fun e he => by
    rw [h]
    exact mem_cons_of_mem _ he
  have hnames : done ++ it.VisitStack.map Prod.fst = done ++ [N] ++ below.map Prod.fst := by
    rw [h, map_cons, append_assoc, singleton_append]
  have hchildren : ∀ c ∈ children N, c ∈ it.Visited := fun c hc =>
    (hs.stack_closed _ htop c hc).resolve_right not_mem_nil
  have hpopped : Searched children rank root (done ++ [N]) { it with VisitStack := below } := by
    refine ⟨by rw [← hnames]; exact hs.nodup, by rw [← hnames]; exact hs.visited, hs.root_visited,
      hs.reachable, ?_, fun e he => hs.stack_closed e (hbelow e he),
      fun e he => hs.stack_children e (hbelow e he), fun hrank => ?_⟩
    · intro v hv
      rcases List.mem_append.mp hv with hv | hv
      · exact hs.done_closed v hv
      · rw [List.mem_singleton.mp hv]
        exact hchildren
    · obtain ⟨hsorted, hfirst⟩ := hs.ordered hrank
      rw [h, map_cons, pairwise_cons] at hsorted
      refine ⟨hsorted.2, fun l v l' hsplit c hc => ?_⟩
      rcases eq_nil_or_concat l' with rfl | ⟨l', last, rfl⟩
      · obtain ⟨rfl, hv⟩ := append_inj' hsplit rfl
        obtain rfl := head_eq_of_cons_eq hv
        have hvisited := (hs.visited c).mp (hchildren c hc)
        rw [h] at hvisited
        rcases List.mem_append.mp hvisited with hdone | hstack
        · exact hdone
        · have hlt := hrank N c hc
          rcases List.mem_cons.mp hstack with rfl | hstack
          · exact absurd hlt (lt_irrefl _)
          · exact absurd hlt (lt_asymm (hsorted.1 c hstack))
      · rw [concat_eq_append, ← cons_append, ← append_assoc] at hsplit
        exact hfirst l v l' (append_inj' hsplit rfl).1 c hc
  unfold po_iterator.increment
  rw [h, tail_cons]
  dsimp only
  split_ifs with hempty
  · exact ⟨hpopped, by simp [hempty]⟩
  · exact hpopped.traverseChild

theorem Searched.nodes [Fintype V] (hs : Searched children rank root done it)
    (htop : ∀ top ∈ it.VisitStack.head?, top.2 = []) :
    ∃ last : po_iterator V, last.VisitStack = [] ∧
      Searched children rank root (done ++ it.nodes children) last := by
  induction it using nodes.induct children generalizing done with
  | case1 it h =>
    rw [po_iterator.nodes]
    split
    · exact ⟨it, h, by rwa [append_nil]⟩
    · next heq => rw [h] at heq; cases heq
  | case2 it N rest below h ih =>
    obtain rfl : rest = [] := htop (N, rest) (by rw [h]; rfl)
    obtain ⟨hnext, htop'⟩ := hs.increment h
    rw [po_iterator.nodes]
    split
    · next heq => rw [h] at heq; cases heq
    · next N' _ _ heq =>
      rw [h] at heq
      obtain rfl : N = N' := congrArg Prod.fst (head_eq_of_cons_eq heq)
      obtain ⟨last, hlast, hsearched⟩ := ih hnext htop'
      exact ⟨last, hlast, by rwa [append_assoc, singleton_append] at hsearched⟩

omit [DecidableEq V] in
theorem Searched.start (children : V → List V) (rank : V → Nat) (root : V) :
    Searched children rank root [] ⟨{root}, [(root, children root)]⟩ where
  nodup := by simp
  visited := by simp
  root_visited := Finset.mem_singleton_self root
  reachable := by
    intro v hv
    rw [Finset.mem_singleton.mp hv]
  done_closed := by simp
  stack_closed := by
    intro e he c hc
    rw [List.mem_singleton.mp he] at hc ⊢
    exact .inr hc
  stack_children := by simp
  ordered := fun _ => ⟨by simp, fun l v l' h => by simp at h⟩

theorem post_order_spec [Fintype V] (children : V → List V) (root : V) :
    (post_order children root).Nodup ∧ (∀ v, v ∈ post_order children root ↔
        Relation.ReflTransGen (fun v c => c ∈ children v) root v) ∧
      ∀ rank : V → Nat, (∀ v, ∀ c ∈ children v, rank v < rank c) →
        ChildrenFirst children (post_order children root) := by
  have hspec : ∀ rank : V → Nat, ∃ last : po_iterator V, last.VisitStack = [] ∧
      Searched children rank root (post_order children root) last := by
    intro rank
    obtain ⟨hstart, htop⟩ := (Searched.start children rank root).traverseChild
    exact hstart.nodes htop
  obtain ⟨last, hlast, hs⟩ := hspec fun _ => 0
  have hvisited : ∀ v, v ∈ last.Visited ↔ v ∈ post_order children root := by
    intro v
    rw [hs.visited, hlast, map_nil, append_nil]
  refine ⟨?_, fun v => ⟨fun hv => hs.reachable v ((hvisited v).mpr hv), fun hreach => ?_⟩,
    fun rank hrank => ?_⟩
  · have hnodup := hs.nodup
    rwa [hlast, map_nil, append_nil] at hnodup
  · induction hreach with
    | refl => exact (hvisited root).mp hs.root_visited
    | tail _ hedge ih => exact (hvisited _).mp (hs.done_closed _ ih _ hedge)
  · obtain ⟨last', -, hs'⟩ := hspec rank
    exact (hs'.ordered hrank).2

end po_iterator

end Zapcc.ADT
