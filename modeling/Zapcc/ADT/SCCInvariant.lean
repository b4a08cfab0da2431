import Zapcc.ADT.SCCIterator
import Zapcc.Library.Components

/-!
# The low-link invariant

The nodes whose component is not complete stand on the component stack by their numbers, and the
visit stack cuts it into the nodes that were finished below each node of the search. The minimum
of a frame bounds the numbers that the edges of its part lead to, where complete nodes count as
`⊤`, and is the number of a node that is reached and still on the stack. Following the children
keeps the invariant (`Inv.DFSVisitChildren`), and so does popping a node (`Inv.pop`).
-/

namespace Zapcc.ADT.SccIterator

open Components List Option

variable {V : Type*} {children : V → List V}

/-- There is a path along the children. -/
abbrev Path (children : V → List V) : V → V → Prop := Reaches fun u v => v ∈ children u

/-- A node was visited, and its number is not below a minimum. -/
def Above (N : V → Option VisitNum) (m : VisitNum) (w : V) : Prop := ∃ n, N w = some n ∧ m ≤ n

variable {N : V → Option VisitNum} {fs : List (StackElement V)}

theorem Above.mono_min {m m' : VisitNum} {w : V} (h : Above N m w)
    (hle : m' ≤ m) : Above N m' w := by
  obtain ⟨n, hn, hmn⟩ := h
  exact ⟨n, hn, hle.trans hmn⟩

/-- Numbers of nodes only appear and grow. -/
def Grows (N N' : V → Option VisitNum) : Prop :=
  ∀ w n, N w = some n → ∃ n', N' w = some n' ∧ n ≤ n'

theorem Above.grow {N N' : V → Option VisitNum} {m : VisitNum} {w : V} (h : Above N m w)
    (hgrow : Grows N N') : Above N' m w := by
  obtain ⟨n, hn, hmn⟩ := h
  obtain ⟨n', hn', hle⟩ := hgrow w n hn
  exact ⟨n', hn', hmn.trans hle⟩

/-- A part of the component stack: the finished nodes `B` above the node of a frame, and what is
known of the edges that were followed. `fs` are the frames below, and `S` is their part. -/
structure Part (children : V → List V) (N : V → Option VisitNum) (f : StackElement V)
    (fs : List (StackElement V)) (B S : List V) : Prop where
  edges : ∀ v ∈ B, ∀ w ∈ children v, Above N f.MinVisited w
  back : ∀ v ∈ B, ∃ g ∈ f :: fs, Path children v g.Node
  followed : ∃ done, children f.Node = done ++ f.NextChild ∧ ∀ w ∈ done, Above N f.MinVisited w
  low : ∃ x ∈ f.Node :: S, N x = some f.MinVisited ∧ Path children f.Node x

/-- The visit stack cuts the component stack into its parts. -/
inductive Frames (children : V → List V) (N : V → Option VisitNum) :
    List (StackElement V) → List V → Prop where
  | nil : Frames children N [] []
  | cons {f : StackElement V} {fs : List (StackElement V)} {B S : List V} :
      Part children N f fs B S → Frames children N fs S →
        Frames children N (f :: fs) (B ++ f.Node :: S)

theorem Frames.mem {S : List V}
    (h : Frames children N fs S) {g : StackElement V} (hg : g ∈ fs) : g.Node ∈ S := by
  induction h with
  | nil => simp at hg
  | cons _ _ ih =>
    rcases mem_cons.mp hg with rfl | hg
    · simp
    · simp [ih hg]

theorem Frames.back {S : List V}
    (h : Frames children N fs S) {v : V} (hv : v ∈ S) :
    ∃ g ∈ fs, Path children v g.Node := by
  induction h with
  | nil => simp at hv
  | @cons f fs B S hpart _ ih =>
    rcases mem_append.mp hv with hv | hv
    · exact hpart.back v hv
    · rcases mem_cons.mp hv with rfl | hv
      · exact ⟨f, by simp, .refl⟩
      · obtain ⟨g, hg, hpath⟩ := ih hv
        exact ⟨g, by simp [hg], hpath⟩

theorem Frames.grow {N N' : V → Option VisitNum} {S : List V}
    (h : Frames children N fs S) (hgrow : Grows N N') (hsame : ∀ x ∈ S, N' x = N x) :
    Frames children N' fs S := by
  induction h with
  | nil => exact .nil
  | cons hpart _ ih =>
    refine .cons ?_ (ih fun x hx => hsame x (by simp [hx]))
    obtain ⟨hedges, hback, ⟨done, hdone, habove⟩, x, hx, hnum, hpath⟩ := hpart
    refine ⟨fun v hv w hw => (hedges v hv w hw).grow hgrow, hback,
      ⟨done, hdone, fun w hw => (habove w hw).grow hgrow⟩, x, hx, ?_, hpath⟩
    rw [hsame x (by simp only [mem_append]; exact .inr hx), hnum]

/-- The numbers fall along a stack. -/
def Falling (N : V → Option VisitNum) (S : List V) : Prop :=
  S.Pairwise fun v u => ∀ m n, N u = some m → N v = some n → m < n

/-- The invariant of the iterator. -/
structure Inv (children : V → List V) (entryN : V) (it : SccIterator V) : Prop where
  active : ∀ v, v ∈ it.SCCNodeStack ↔ ∃ n : Nat, it.nodeVisitNumbers v = some (WithTop.some n)
  bound : ∀ v (n : Nat), it.nodeVisitNumbers v = some (WithTop.some n) → n ≤ it.visitNum
  falling : Falling it.nodeVisitNumbers it.SCCNodeStack
  path : it.SCCNodeStack.Pairwise fun v u => Path children u v
  frames : Frames children it.nodeVisitNumbers it.VisitStack it.SCCNodeStack
  closed : ∀ v w, it.nodeVisitNumbers v = some ⊤ → w ∈ children v → it.nodeVisitNumbers w = some ⊤
  reached : ∀ v, it.nodeVisitNumbers v ≠ none → Path children entryN v
  entry : it.nodeVisitNumbers entryN ≠ none

variable {entryN : V} {it : SccIterator V}

theorem Inv.number (h : Inv children entryN it) {v : V} (hv : v ∈ it.SCCNodeStack) :
    ∃ n : Nat, it.nodeVisitNumbers v = some (WithTop.some n) ∧ n ≤ it.visitNum := by
  obtain ⟨n, hn⟩ := (h.active v).mp hv
  exact ⟨n, hn, h.bound v n hn⟩

theorem Inv.complete_or_active (h : Inv children entryN it) {v : V}
    (hv : it.nodeVisitNumbers v ≠ none) :
    it.nodeVisitNumbers v = some ⊤ ∨ v ∈ it.SCCNodeStack := by
  cases hnum : it.nodeVisitNumbers v with
  | none => exact absurd hnum hv
  | some n =>
    cases n with
    | none => exact .inl rfl
    | some n => exact .inr ((h.active v).mpr ⟨n, hnum⟩)

theorem Inv.nodup (h : Inv children entryN it) : it.SCCNodeStack.Nodup := by
  refine (Pairwise.and_mem.mp h.falling).imp ?_
  rintro v u ⟨hv, -, hless⟩ rfl
  obtain ⟨n, hn, -⟩ := h.number hv
  exact lt_irrefl _ (hless n n hn hn)

theorem Inv.cases_top (h : Inv children entryN it) {f : StackElement V}
    (hstack : it.VisitStack = f :: fs) :
    ∃ B S, it.SCCNodeStack = B ++ f.Node :: S ∧ Part children it.nodeVisitNumbers f fs B S ∧
      Frames children it.nodeVisitNumbers fs S := by
  have hframes := h.frames
  rw [hstack] at hframes
  generalize hS : it.SCCNodeStack = S₀ at hframes
  cases hframes with
  | cons hpart hrest => exact ⟨_, _, rfl, hpart, hrest⟩

theorem Falling.lt_of_above {B S : List V} {n v : V}
    (h : Falling N (B ++ n :: S)) (hv : v ∈ B) {a b : VisitNum} (ha : N n = some a)
    (hb : N v = some b) : a < b :=
  (pairwise_append.mp h).2.2 v hv n (by simp) a b ha hb

theorem Falling.lt_of_below {B S : List V} {n u : V}
    (h : Falling N (B ++ n :: S)) (hu : u ∈ S) {a b : VisitNum} (ha : N u = some a)
    (hb : N n = some b) : a < b :=
  (pairwise_cons.mp (pairwise_append.mp h).2.1).1 u hu a b ha hb

theorem Part.min_le {f : StackElement V}
    {B S : List V} (h : Part children N f fs B S) (hfall : Falling N (B ++ f.Node :: S))
    {a : VisitNum} (ha : N f.Node = some a) : f.MinVisited ≤ a := by
  obtain ⟨x, hx, hnum, -⟩ := h.low
  rcases mem_cons.mp hx with rfl | hx
  · rw [hnum] at ha
    exact (some.inj ha).le
  · exact (hfall.lt_of_below hx hnum ha).le

/-! ## Following the children -/

theorem Inv.follow_visited (h : Inv children entryN it) {Node childN : V} {NextChild : List V}
    {m k : VisitNum} {rest : List (StackElement V)}
    (hstack : it.VisitStack = ⟨Node, childN :: NextChild, m⟩ :: rest)
    (hk : it.nodeVisitNumbers childN = some k) :
    Inv children entryN
      { it with VisitStack := ⟨Node, NextChild, if m > k then k else m⟩ :: rest } := by
  obtain ⟨B, S, hS, hpart, hrest⟩ := h.cases_top hstack
  have hfall := hS ▸ h.falling
  obtain ⟨a, ha, -⟩ := h.number (v := Node) (by simp [hS])
  have hma : m ≤ a := hpart.min_le hfall ha
  have hle : (if m > k then k else m) ≤ m := by
    split
    · exact le_of_lt ‹_›
    · exact le_refl m
  have hlek : (if m > k then k else m) ≤ k := by
    split
    · exact le_refl k
    · exact not_lt.mp ‹_›
  obtain ⟨done, hdone, habove⟩ := hpart.followed
  have hedge : childN ∈ children Node := by simp [show children Node = _ from hdone]
  -- the minimum is the number of a node that is not above this one
  have hlow : ∃ x ∈ Node :: S, it.nodeVisitNumbers x = some (if m > k then k else m) ∧
      Path children Node x := by
    by_cases hmk : m > k
    · rw [if_pos hmk]
      refine ⟨childN, ?_, hk, .single hedge⟩
      have hne : k ≠ ⊤ := fun htop => not_top_lt (htop ▸ hmk)
      have hmem : childN ∈ B ++ Node :: S := by
        rw [← hS]
        exact (h.complete_or_active (by simp [hk])).resolve_left fun htop =>
          hne (some.inj (hk.symm.trans htop))
      refine (mem_append.mp hmem).resolve_left fun hB => ?_
      exact absurd (hfall.lt_of_above hB ha hk) (not_lt.mpr (hmk.le.trans hma))
    · rw [if_neg hmk]
      exact hpart.low
  refine ⟨h.active, h.bound, h.falling, h.path, ?_, h.closed, h.reached, h.entry⟩
  rw [hS]
  refine .cons (f := ⟨Node, NextChild, if m > k then k else m⟩) ⟨?_, ?_, ?_, hlow⟩ hrest
  · exact fun v hv w hw => (hpart.edges v hv w hw).mono_min hle
  · intro v hv
    obtain ⟨g, hg, hpath⟩ := hpart.back v hv
    rcases mem_cons.mp hg with rfl | hg
    · exact ⟨_, mem_cons_self, hpath⟩
    · exact ⟨g, mem_cons_of_mem _ hg, hpath⟩
  · refine ⟨done ++ [childN], by simpa using hdone, fun w hw => ?_⟩
    rcases mem_append.mp hw with hw | hw
    · exact (habove w hw).mono_min hle
    · obtain rfl := mem_singleton.mp hw
      exact ⟨k, hk, hlek⟩

variable [DecidableEq V]

theorem Inv.follow_new (h : Inv children entryN it) {Node childN : V} {NextChild : List V}
    {m : VisitNum} {rest : List (StackElement V)}
    (hstack : it.VisitStack = ⟨Node, childN :: NextChild, m⟩ :: rest)
    (hnew : it.nodeVisitNumbers childN = none) :
    Inv children entryN
      (DFSVisitOne children { it with VisitStack := ⟨Node, NextChild, m⟩ :: rest } childN) := by
  obtain ⟨B, S, hS, hpart, hrest⟩ := h.cases_top hstack
  have hfall := hS ▸ h.falling
  obtain ⟨done, hdone, habove⟩ := hpart.followed
  have hedge : childN ∈ children Node := by simp [show children Node = _ from hdone]
  -- the new number is the greatest one
  let num : VisitNum := WithTop.some (it.visitNum + 1)
  let N' : V → Option VisitNum :=
    fun M => if M = childN then some num else it.nodeVisitNumbers M
  have hself : N' childN = some num := if_pos rfl
  have hother : ∀ v, v ≠ childN → N' v = it.nodeVisitNumbers v := fun v hv => if_neg hv
  have hgrow : Grows it.nodeVisitNumbers N' := by
    intro w n hn
    have hw : w ≠ childN := by rintro rfl; simp [hnew] at hn
    exact ⟨n, by rw [hother w hw, hn], le_refl n⟩
  have hnotin : childN ∉ it.SCCNodeStack := by
    intro hmem
    obtain ⟨n, hn, -⟩ := h.number hmem
    simp [hnew] at hn
  have hstays : ∀ v ∈ it.SCCNodeStack, N' v = it.nodeVisitNumbers v := fun v hv =>
    hother v fun heq => hnotin (heq ▸ hv)
  have hmem : Node ∈ it.SCCNodeStack := by simp [hS]
  obtain ⟨a, ha, hale⟩ := h.number hmem
  have hmnum : m ≤ num := by
    refine (hpart.min_le hfall ha).trans ?_
    show WithTop.some a ≤ WithTop.some (it.visitNum + 1)
    exact WithTop.coe_le_coe.mpr (Nat.le_succ_of_le hale)
  -- every node of the component stack reaches the new one over the top frame
  have hreach : ∀ u ∈ it.SCCNodeStack, Path children u childN := by
    intro u hu
    obtain ⟨g, hg, hpath⟩ := h.frames.back hu
    rw [hstack] at hg
    have hNode : Path children g.Node Node := by
      rcases mem_cons.mp hg with rfl | hg
      · exact .refl
      · have hpair := hS ▸ h.path
        exact (pairwise_cons.mp (pairwise_append.mp hpair).2.1).1 _ (hrest.mem hg)
    exact (hpath.trans hNode).tail hedge
  refine ⟨fun v => ?_, fun v n hn => ?_, ?_, ?_, ?_, fun v w hv hw => ?_, fun v hv => ?_, ?_⟩
  · show v ∈ childN :: it.SCCNodeStack ↔ ∃ n : Nat, N' v = some (WithTop.some n)
    by_cases hv : v = childN
    · subst hv
      exact ⟨fun _ => ⟨it.visitNum + 1, hself⟩, fun _ => mem_cons_self⟩
    · rw [hother v hv, mem_cons, or_iff_right hv, h.active]
  · replace hn : N' v = some (WithTop.some n) := hn
    by_cases hv : v = childN
    · subst hv
      rw [hself] at hn
      exact (WithTop.coe_injective (some.inj hn)).ge
    · rw [hother v hv] at hn
      exact (h.bound v n hn).trans (Nat.le_succ _)
  · show Falling N' (childN :: it.SCCNodeStack)
    refine pairwise_cons.mpr ⟨fun u hu b c hb hc => ?_, ?_⟩
    · obtain ⟨n, hn, hle⟩ := h.number hu
      rw [hstays u hu, hn] at hb
      rw [hself] at hc
      obtain rfl := some.inj hb
      obtain rfl := some.inj hc
      exact WithTop.coe_lt_coe.mpr (Nat.lt_succ_of_le hle)
    · refine (Pairwise.and_mem.mp h.falling).imp ?_
      rintro v u ⟨hv, hu, hless⟩ b c hb hc
      rw [hstays u hu] at hb
      rw [hstays v hv] at hc
      exact hless b c hb hc
  · exact pairwise_cons.mpr ⟨hreach, h.path⟩
  · show Frames children N' (⟨childN, children childN, num⟩ :: ⟨Node, NextChild, m⟩ :: rest)
      ([] ++ childN :: it.SCCNodeStack)
    refine .cons ⟨by simp, by simp, ⟨[], by simp⟩, childN, by simp, hself, .refl⟩ ?_
    rw [hS] at hstays ⊢
    refine .cons (f := ⟨Node, NextChild, m⟩) ⟨?_, ?_, ?_, ?_⟩
      (hrest.grow hgrow fun x hx => hstays x (by simp [hx]))
    · exact fun v hv w hw => (hpart.edges v hv w hw).grow hgrow
    · intro v hv
      obtain ⟨g, hg, hpath⟩ := hpart.back v hv
      rcases mem_cons.mp hg with rfl | hg
      · exact ⟨_, mem_cons_self, hpath⟩
      · exact ⟨g, mem_cons_of_mem _ hg, hpath⟩
    · refine ⟨done ++ [childN], by simpa using hdone, fun w hw => ?_⟩
      rcases mem_append.mp hw with hw | hw
      · exact (habove w hw).grow hgrow
      · obtain rfl := mem_singleton.mp hw
        exact ⟨num, hself, hmnum⟩
    · obtain ⟨x, hx, hnum, hpath⟩ := hpart.low
      exact ⟨x, hx, by rw [hstays x (mem_append_right _ hx), hnum], hpath⟩
  · replace hv : N' v = some ⊤ := hv
    show N' w = some ⊤
    have hne : v ≠ childN := by
      rintro rfl
      rw [hself] at hv
      exact WithTop.coe_ne_top (some.inj hv)
    rw [hother v hne] at hv
    have hw := h.closed v w hv hw
    rw [hother w (by rintro rfl; simp [hnew] at hw), hw]
  · replace hv : N' v ≠ none := hv
    by_cases hvc : v = childN
    · subst hvc
      exact (h.reached Node (by simp [ha])).tail hedge
    · rw [hother v hvc] at hv
      exact h.reached v hv
  · show N' entryN ≠ none
    rw [hother entryN (by rintro rfl; exact h.entry hnew)]
    exact h.entry

theorem inv_start (entryN : V) : Inv children entryN (start children entryN) := by
  let N' : V → Option VisitNum := fun M => if M = entryN then some (WithTop.some 1) else none
  have hself : N' entryN = some (WithTop.some 1) := if_pos rfl
  have honly : ∀ v k, N' v = some k → v = entryN ∧ k = WithTop.some 1 := by
    intro v k hk
    by_cases hv : v = entryN
    · subst hv
      exact ⟨rfl, (some.inj (hself.symm.trans hk)).symm⟩
    · exact absurd hk (by simp [N', hv])
  refine ⟨fun v => ?_, fun v n hn => ?_, ?_, ?_, ?_, fun v w hv _ => ?_, fun v hv => ?_, ?_⟩
  · show v ∈ [entryN] ↔ ∃ n : Nat, N' v = some (WithTop.some n)
    rw [mem_singleton]
    exact ⟨fun hv => ⟨1, hv ▸ hself⟩, fun ⟨n, hn⟩ => (honly v n hn).1⟩
  · exact (WithTop.coe_injective (honly v n hn).2).le
  · exact pairwise_singleton _ _
  · exact pairwise_singleton _ _
  · show Frames children N' [⟨entryN, children entryN, WithTop.some 1⟩] ([] ++ [entryN])
    exact .cons (f := ⟨entryN, children entryN, WithTop.some 1⟩)
      ⟨by simp, by simp, ⟨[], by simp⟩, entryN, by simp, hself, .refl⟩ .nil
  · exact absurd (honly v ⊤ hv).2.symm (WithTop.coe_ne_top)
  · obtain ⟨k, hk⟩ := ne_none_iff_exists'.mp hv
    rw [(honly v k hk).1]
  · show N' entryN ≠ none
    simp [hself]

variable [Fintype V]

/-- Following the children keeps the invariant and the complete nodes, and ends with a frame
whose children were all followed. -/
theorem Inv.DFSVisitChildren (h : Inv children entryN it) (hne : it.VisitStack ≠ []) :
    Inv children entryN (it.DFSVisitChildren children) ∧
      (∃ Node m rest, (it.DFSVisitChildren children).VisitStack = ⟨Node, [], m⟩ :: rest) ∧
      (it.DFSVisitChildren children).CurrentSCC = it.CurrentSCC ∧
      ∀ v, (it.DFSVisitChildren children).nodeVisitNumbers v = some ⊤ ↔
        it.nodeVisitNumbers v = some ⊤ := by
  fun_induction SccIterator.DFSVisitChildren children it with
  | case1 it hstack => exact absurd hstack hne
  | case2 it Node m rest hstack => exact ⟨h, ⟨Node, m, rest, hstack⟩, rfl, fun v => .rfl⟩
  | case3 it Node childN NextChild m rest hstack hnew ih =>
    obtain ⟨hinv, htop, hcur, hdone⟩ := ih (h.follow_new hstack hnew) (by simp [DFSVisitOne])
    refine ⟨hinv, htop, hcur, fun v => (hdone v).trans ?_⟩
    show (if v = childN then some (WithTop.some (it.visitNum + 1))
      else it.nodeVisitNumbers v) = some ⊤ ↔ it.nodeVisitNumbers v = some ⊤
    split
    · rename_i hv
      rw [hv, hnew]
      exact iff_of_false (fun htop => WithTop.coe_ne_top (some.inj htop)) (by simp)
    · exact .rfl
  | case4 it Node childN NextChild m rest hstack k hk ih =>
    exact ih (h.follow_visited hstack hk) (by simp)

end Zapcc.ADT.SccIterator
