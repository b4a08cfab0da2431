import Mathlib.Data.Nat.Count
import Mathlib.Order.Bounds.Basic
import Zapcc.Library.GeneratedEquivalence

/-!
# Equivalence classes of integers

A class is a tree of pointers to smaller members, which ends in its leader. The main result is
`run_correct`: the leaders and the numbers of the classes are right in every run, and `join`
returns the new leader exactly when `Visible` holds.
-/

namespace Zapcc

open Relation GeneratedEquivalence List

structure IntEqClasses where
  EC : List Nat
  NumClasses : Nat
  deriving DecidableEq

namespace IntEqClasses

/-! ## The code -/

def grow (s : IntEqClasses) (N : Nat) : Option IntEqClasses :=
  if s.NumClasses = 0 then
    some { s with EC := s.EC ++ List.range' s.EC.length (N - s.EC.length) }
  else none

def new (N : Nat) : IntEqClasses := ⟨List.range' 0 N, 0⟩

def joinLoop : Nat → List Nat → Nat → Nat → Nat → Nat → Option (Nat × List Nat)
  | 0, _, _, _, _, _ => none
  | fuel + 1, EC, a, b, eca, ecb =>
    if eca = ecb then some (eca, EC)
    else if eca < ecb then
      ((EC.set b eca)[ecb]?).bind (joinLoop fuel (EC.set b eca) a ecb eca)
    else
      ((EC.set a ecb)[eca]?).bind fun eca' => joinLoop fuel (EC.set a ecb) eca b eca' ecb

/-- `join` returns a member of the class and the new state. -/
def join (s : IntEqClasses) (a b : Nat) : Option (Nat × IntEqClasses) :=
  if s.NumClasses = 0 then
    (s.EC[a]?).bind fun eca => (s.EC[b]?).bind fun ecb =>
      (joinLoop (a + b + eca + ecb + 1) s.EC a b eca ecb).map fun r => (r.1, { s with EC := r.2 })
  else none

def findLeaderLoop : Nat → List Nat → Nat → Option Nat
  | 0, _, _ => none
  | fuel + 1, EC, a => (EC[a]?).bind fun p => if a = p then some a else findLeaderLoop fuel EC p

def findLeader (s : IntEqClasses) (a : Nat) : Option Nat :=
  if s.NumClasses = 0 then findLeaderLoop (a + 1) s.EC a else none

/-- The first rounds of the loop of `compress`. -/
def compressTo (EC : List Nat) : Nat → Option (List Nat × Nat)
  | 0 => some (EC, 0)
  | i + 1 => (compressTo EC i).bind fun (EC, NumClasses) => (EC[i]?).bind fun p =>
    if p = i then some (EC.set i NumClasses, NumClasses + 1)
    else (EC[p]?).map fun c => (EC.set i c, NumClasses)

def compress (s : IntEqClasses) : Option IntEqClasses :=
  if s.NumClasses ≠ 0 then some s
  else (compressTo s.EC s.EC.length).map fun r => ⟨r.1, r.2⟩

/-- The first rounds of the loop of `uncompress`. -/
def uncompressTo (EC : List Nat) : Nat → Option (List Nat × List Nat)
  | 0 => some (EC, [])
  | i + 1 => (uncompressTo EC i).bind fun (EC, Leader) => (EC[i]?).map fun c =>
    match Leader[c]? with
    | some l => (EC.set i l, Leader)
    | none => (EC.set i i, Leader ++ [i])

def uncompress (s : IntEqClasses) : Option IntEqClasses :=
  if s.NumClasses = 0 then some s
  else (uncompressTo s.EC s.EC.length).map fun r => ⟨r.1, 0⟩

/-! ## Trees of pointers -/

def Parent (EC : List Nat) (a p : Nat) : Prop := EC[a]? = some p

instance (EC : List Nat) (a p : Nat) : Decidable (Parent EC a p) :=
  inferInstanceAs (Decidable (EC[a]? = some p))

/-- The end of the pointers from an integer. -/
def Leader (EC : List Nat) (a l : Nat) : Prop := TransGen (Parent EC) a l ∧ Parent EC l l

def Joined (EC : List Nat) : Nat → Nat → Prop := EqvGen (Parent EC)

/-- The pointers go to smaller integers. -/
def Down (EC : List Nat) : Prop := ∀ ⦃a p⦄, Parent EC a p → p ≤ a

/-- The smallest member of the class of `a`. -/
def Least (R : Nat → Nat → Prop) (a l : Nat) : Prop := IsLeast {x | R a x} l

variable {EC : List Nat} {a b p l m x y v eca ecb : Nat}

theorem Parent.unique (h : Parent EC a p) (h' : Parent EC a b) : p = b :=
  Option.some.inj (h.symm.trans h')

theorem Parent.lt_length (h : Parent EC a p) : a < EC.length :=
  (List.getElem?_eq_some_iff.mp h).1

theorem exists_parent (ha : a < EC.length) : ∃ p, Parent EC a p :=
  ⟨EC[a], getElem?_eq_getElem ha⟩

theorem parent_set_iff (hb : b < EC.length) :
    Parent (EC.set b v) a p ↔ if a = b then p = v else Parent EC a p := by
  unfold Parent
  rw [getElem?_set]
  by_cases ha : b = a
  · rw [if_pos ha, if_pos hb, if_pos ha.symm, Option.some.injEq, eq_comm]
  · rw [if_neg ha, if_neg (Ne.symm ha)]

theorem transGen_parent_iff (h : Parent EC a p) :
    TransGen (Parent EC) a x ↔ x = p ∨ TransGen (Parent EC) p x := by
  rw [TransGen.head'_iff]
  constructor
  · rintro ⟨q, hq, hqx⟩
    obtain rfl := h.unique hq
    rcases reflTransGen_iff_eq_or_transGen.mp hqx with heq | htrans
    · exact .inl heq
    · exact .inr htrans
  · rintro (rfl | htrans)
    · exact ⟨x, h, .refl⟩
    · exact ⟨p, h, htrans.to_reflTransGen⟩

theorem Down.transGen_le (hD : Down EC) (h : TransGen (Parent EC) a x) : x ≤ a := by
  induction h with
  | single h => exact hD h
  | tail _ h ih => exact (hD h).trans ih

theorem transGen_root_iff (h : Parent EC a a) : TransGen (Parent EC) a x ↔ x = a := by
  refine ⟨fun hx => ?_, fun hx => hx.symm ▸ .single h⟩
  induction hx with
  | single hp => exact hp.unique h
  | tail _ hp ih => exact (ih ▸ hp).unique h

theorem leader_parent_iff (h : Parent EC a p) : Leader EC a l ↔ Leader EC p l := by
  unfold Leader
  rw [transGen_parent_iff h]
  refine and_congr_left fun hl => or_iff_right_of_imp fun heq => ?_
  subst heq
  exact .single hl

theorem leader_congr (h : Joined EC a b) : Leader EC a l ↔ Leader EC b l := by
  induction h with
  | rel _ _ h => exact leader_parent_iff h
  | refl => exact Iff.rfl
  | symm _ _ _ ih => exact ih.symm
  | trans _ _ _ _ _ ih ih' => exact ih.trans ih'

theorem leader_root_iff (h : Parent EC a a) : Leader EC a l ↔ l = a := by
  unfold Leader
  rw [transGen_root_iff h]
  exact ⟨And.left, fun hl => ⟨hl, hl ▸ h⟩⟩

theorem Leader.joined (h : Leader EC a l) : Joined EC a l := by
  have htrans := h.1
  clear h
  induction htrans with
  | single h => exact .rel _ _ h
  | tail _ h ih => exact ih.trans _ _ _ (.rel _ _ h)

theorem Leader.unique (h : Leader EC a l) (h' : Leader EC a m) : l = m :=
  (leader_root_iff h'.2).mp ((leader_congr h'.joined).mp h)

theorem Down.exists_leader (hD : Down EC) (ha : a < EC.length) : ∃ l, Leader EC a l := by
  induction a using Nat.strong_induction_on with
  | h a ih =>
    obtain ⟨p, hp⟩ := exists_parent ha
    rcases (hD hp).eq_or_lt with rfl | hlt
    · exact ⟨p, (leader_root_iff hp).mpr rfl⟩
    · obtain ⟨l, hl⟩ := ih p hlt (hlt.trans ha)
      exact ⟨l, (leader_parent_iff hp).mpr hl⟩

theorem Leader.least (hD : Down EC) (h : Leader EC a l) : Least (Joined EC) a l := by
  refine ⟨h.joined, fun x hx => ?_⟩
  exact hD.transGen_le ((leader_congr hx).mp h).1

theorem least_iff_leader (hD : Down EC) (ha : a < EC.length) :
    Least (Joined EC) a l ↔ Leader EC a l := by
  refine ⟨fun h => ?_, Leader.least hD⟩
  obtain ⟨m, hm⟩ := hD.exists_leader ha
  exact IsLeast.unique h (hm.least hD) ▸ hm

theorem findLeaderLoop_spec (hD : Down EC) {fuel : Nat} (hfuel : a < fuel) (h : Leader EC a l) :
    findLeaderLoop fuel EC a = some l := by
  induction fuel generalizing a with
  | zero => exact absurd hfuel (Nat.not_lt_zero a)
  | succ fuel ih =>
    obtain ⟨p, hp, -⟩ := TransGen.head'_iff.mp h.1
    rw [findLeaderLoop, show EC[a]? = some p from hp, Option.bind_some]
    split_ifs with heq
    · subst heq
      rw [(leader_root_iff hp).mp h]
    · have hle := hD hp
      exact ih (by omega) ((leader_parent_iff hp).mp h)

/-! ## Joining -/

/-- No ancestor of `a` but its leader is an ancestor of `b` too or in front of the leader of `b`. -/
def Meets (EC : List Nat) (a b : Nat) : Prop :=
  ∀ x, TransGen (Parent EC) a x → ¬ Parent EC x x →
    ¬ TransGen (Parent EC) b x ∧ ∀ l, Leader EC b l → l ≤ x

/-- The walk from both integers ends at a leader. -/
def Visible (EC : List Nat) (a b : Nat) : Prop := Meets EC a b ∧ Meets EC b a

/-- The classes after `a` and `b` are joined. -/
def JoinedWith (EC : List Nat) (a b : Nat) : Nat → Nat → Prop :=
  EqvGen fun x y => Parent EC x y ∨ (x = a ∧ y = b)

theorem joinedWith_symm : JoinedWith EC a b x y ↔ JoinedWith EC b a x y := by
  have hle : ∀ {a b : Nat}, JoinedWith EC a b x y → JoinedWith EC b a x y := by
    refine fun h => eqvGen_le (fun x y hxy => ?_) h
    rcases hxy with hparent | ⟨rfl, rfl⟩
    · exact .rel _ _ (.inl hparent)
    · exact .symm _ _ (.rel _ _ (.inr ⟨rfl, rfl⟩))
  exact ⟨hle, hle⟩

theorem visible_symm : Visible EC a b ↔ Visible EC b a := And.comm

theorem joinedWith_iff_joined (ha : Parent EC a p) (hb : Parent EC b p) :
    JoinedWith EC a b x y ↔ Joined EC x y := by
  refine ⟨eqvGen_le fun x y hxy => ?_, eqvGen_le fun x y hxy => .rel _ _ (.inl hxy)⟩
  rcases hxy with hparent | ⟨rfl, rfl⟩
  · exact .rel _ _ hparent
  · exact .trans _ _ _ (.rel _ _ ha) (.symm _ _ (.rel _ _ hb))

theorem visible_iff_root (ha : Parent EC a p) (hb : Parent EC b p) :
    Visible EC a b ↔ Parent EC p p := by
  refine ⟨fun h => ?_, fun hp => ?_⟩
  · by_contra hp
    exact (h.1 p (.single ha) hp).1 (.single hb)
  · have hroot : ∀ {c : Nat}, Parent EC c p → ∀ x, TransGen (Parent EC) c x → Parent EC x x := by
      intro c hc x hx
      rw [transGen_parent_iff hc, transGen_root_iff hp, or_self] at hx
      exact hx ▸ hp
    exact ⟨fun x hx hnot => absurd (hroot ha x hx) hnot,
      fun x hx hnot => absurd (hroot hb x hx) hnot⟩

theorem transGen_set_iff (hD : Down EC) (hb : b < EC.length) (ha : a < b) :
    TransGen (Parent (EC.set b v)) a x ↔ TransGen (Parent EC) a x := by
  constructor
  · intro h
    induction h with
    | single h => exact .single (by simpa [parent_set_iff hb, ha.ne] using h)
    | @tail y z _ h ih =>
      have hy : y ≠ b := ((hD.transGen_le ih).trans_lt ha).ne
      exact ih.tail (by simpa [parent_set_iff hb, hy] using h)
  · intro h
    induction h with
    | single h => exact .single (by simpa [parent_set_iff hb, ha.ne] using h)
    | @tail y z hay h ih =>
      have hy : y ≠ b := ((hD.transGen_le hay).trans_lt ha).ne
      exact ih.tail (by simpa [parent_set_iff hb, hy] using h)

theorem Meets.congr {EC' : List Nat} (h : Meets EC a b)
    (ha : ∀ x, TransGen (Parent EC') a x ↔ TransGen (Parent EC) a x)
    (hb : ∀ x, TransGen (Parent EC') b x ↔ TransGen (Parent EC) b x)
    (hroot : ∀ x, TransGen (Parent EC) a x ∨ TransGen (Parent EC) b x →
      (Parent EC' x x ↔ Parent EC x x)) : Meets EC' a b := by
  intro x hx hnot
  rw [ha] at hx
  rw [hroot x (.inl hx)] at hnot
  obtain ⟨hb', hle⟩ := h x hx hnot
  refine ⟨by rwa [hb], fun l hl => hle l ?_⟩
  have htrans := (hb l).mp hl.1
  exact ⟨htrans, (hroot l (.inr htrans)).mp hl.2⟩

theorem visible_congr {EC' : List Nat}
    (ha : ∀ x, TransGen (Parent EC') a x ↔ TransGen (Parent EC) a x)
    (hb : ∀ x, TransGen (Parent EC') b x ↔ TransGen (Parent EC) b x)
    (hroot : ∀ x, TransGen (Parent EC) a x ∨ TransGen (Parent EC) b x →
      (Parent EC' x x ↔ Parent EC x x)) : Visible EC' a b ↔ Visible EC a b := by
  refine ⟨fun h => ⟨?_, ?_⟩, fun h => ⟨h.1.congr ha hb hroot, h.2.congr hb ha fun x hx =>
    hroot x hx.symm⟩⟩
  · refine h.1.congr (fun x => (ha x).symm) (fun x => (hb x).symm) fun x hx => ?_
    rw [ha, hb] at hx
    exact (hroot x hx).symm
  · refine h.2.congr (fun x => (hb x).symm) (fun x => (ha x).symm) fun x hx => ?_
    rw [ha, hb] at hx
    exact (hroot x hx.symm).symm

/-- The loop is at two integers and their parents. -/
structure Joining (EC : List Nat) (a b eca ecb : Nat) : Prop where
  down : Down EC
  parent_a : Parent EC a eca
  parent_b : Parent EC b ecb

namespace Joining

theorem symm (h : Joining EC a b eca ecb) : Joining EC b a ecb eca :=
  ⟨h.down, h.parent_b, h.parent_a⟩

theorem ne (h : Joining EC a b eca ecb) (hlt : eca < ecb) : a ≠ b := by
  rintro rfl
  exact hlt.ne (h.parent_a.unique h.parent_b)

theorem visible_parent_iff (h : Joining EC a b eca ecb) (hlt : eca < ecb) :
    Visible EC a ecb ↔ Visible EC a b := by
  have hle : ∀ {x}, TransGen (Parent EC) a x → x < ecb := by
    intro x hx
    rw [transGen_parent_iff h.parent_a] at hx
    rcases hx with rfl | hx
    · exact hlt
    · exact (h.down.transGen_le hx).trans_lt hlt
  refine and_congr (forall₃_congr fun x hx _ => ?_) (forall_congr' fun x => ?_)
  · rw [transGen_parent_iff h.parent_b, or_iff_right (hle hx).ne]
    simp only [leader_parent_iff h.parent_b]
  · rw [transGen_parent_iff h.parent_b]
    refine ⟨fun hmeets hx hnot => ?_, fun hmeets hx => hmeets (.inr hx)⟩
    rcases hx with rfl | hx
    · exact ⟨fun hax => (hle hax).ne rfl, fun l hl => (hle hl.1).le⟩
    · exact hmeets hx hnot

theorem step (h : Joining EC a b eca ecb) (hlt : eca < ecb) :
    ∃ ecb', Parent (EC.set b eca) ecb ecb' ∧ Joining (EC.set b eca) a ecb eca ecb' ∧
      ecb + ecb' < b + ecb ∧
      (∀ x y, JoinedWith (EC.set b eca) a ecb x y ↔ JoinedWith EC a b x y) ∧
      (Visible (EC.set b eca) a ecb ↔ Visible EC a b) := by
  have hb := h.parent_b.lt_length
  have hab := h.ne hlt
  have hecb := h.down h.parent_b
  have hset {c p : Nat} := parent_set_iff (a := c) (p := p) (v := eca) hb
  have hdown : Down (EC.set b eca) := by
    intro c p hp
    rw [hset] at hp
    split_ifs at hp with hc
    · omega
    · exact h.down hp
  have hpa : Parent (EC.set b eca) a eca := by
    rw [hset, if_neg hab]
    exact h.parent_a
  have hpb : Parent (EC.set b eca) b eca := by rw [hset, if_pos rfl]
  obtain ⟨ecb', hecb'⟩ := exists_parent
    (show ecb < (EC.set b eca).length by rw [length_set]; omega)
  have hecb'_le := hdown hecb'
  refine ⟨ecb', hecb', ⟨hdown, hpa, hecb'⟩, ?_, fun x y => ⟨?_, ?_⟩, ?_⟩
  · rcases hecb.eq_or_lt with heq | hlt'
    · subst heq
      have := hecb'.unique hpb
      omega
    · omega
  · refine eqvGen_le fun x y hxy => ?_
    have hjoin : JoinedWith EC a b a b := .rel _ _ (.inr ⟨rfl, rfl⟩)
    rcases hxy with hparent | ⟨rfl, rfl⟩
    · rw [hset] at hparent
      split_ifs at hparent with hx
      · subst hx hparent
        exact .trans _ _ _ (.symm _ _ hjoin) (.rel _ _ (.inl h.parent_a))
      · exact .rel _ _ (.inl hparent)
    · exact .trans _ _ _ hjoin (.rel _ _ (.inl h.parent_b))
  · refine eqvGen_le fun x y hxy => ?_
    have hjoin : JoinedWith (EC.set b eca) a ecb a ecb := .rel _ _ (.inr ⟨rfl, rfl⟩)
    have hba : JoinedWith (EC.set b eca) a ecb b a :=
      .trans _ _ _ (.rel _ _ (.inl hpb)) (.symm _ _ (.rel _ _ (.inl hpa)))
    rcases hxy with hparent | ⟨rfl, rfl⟩
    · by_cases hx : x = b
      · subst hx
        obtain rfl := h.parent_b.unique hparent
        exact .trans _ _ _ hba hjoin
      · exact .rel _ _ (.inl (by rwa [hset, if_neg hx]))
    · exact .symm _ _ hba
  · rw [← h.visible_parent_iff hlt]
    rcases hecb.eq_or_lt with heq | hlt'
    · subst heq
      rw [visible_iff_root hpa hpb, hset, if_neg hlt.ne]
      refine ⟨fun hroot => ⟨fun x hx hnot => ?_, fun x hx hnot => ?_⟩, fun hvisible => ?_⟩
      · rw [transGen_parent_iff h.parent_a, transGen_root_iff hroot, or_self] at hx
        exact absurd (hx ▸ hroot) hnot
      · rw [transGen_root_iff h.parent_b] at hx
        exact absurd (hx ▸ h.parent_b) hnot
      · by_contra hnot
        have hle := (hvisible.1 eca (.single h.parent_a) hnot).2 ecb
          ((leader_root_iff h.parent_b).mpr rfl)
        omega
    · have heca : ∀ x, TransGen (Parent (EC.set b eca)) eca x ↔ TransGen (Parent EC) eca x :=
        fun x => transGen_set_iff h.down hb (by omega)
      refine visible_congr (fun x => ?_) (fun x => transGen_set_iff h.down hb hlt') fun x hx => ?_
      · rw [transGen_parent_iff hpa, transGen_parent_iff h.parent_a, heca]
      · rw [hset, if_neg]
        rw [transGen_parent_iff h.parent_a] at hx
        rcases hx with (rfl | hx) | hx
        · omega
        · have := h.down.transGen_le hx
          omega
        · have := h.down.transGen_le hx
          omega

end Joining

theorem joinLoop_spec {fuel : Nat} (h : Joining EC a b eca ecb)
    (hfuel : a + b + eca + ecb < fuel) :
    ∃ r EC', joinLoop fuel EC a b eca ecb = some (r, EC') ∧ Down EC' ∧ EC'.length = EC.length ∧
      (∀ x y, Joined EC' x y ↔ JoinedWith EC a b x y) ∧ JoinedWith EC a b a r ∧
      (Parent EC' r r ↔ Visible EC a b) := by
  induction fuel generalizing EC a b eca ecb with
  | zero => omega
  | succ fuel ih =>
    rw [joinLoop]
    split_ifs with heq hlt
    · subst heq
      refine ⟨eca, EC, rfl, h.down, rfl,
        fun x y => (joinedWith_iff_joined h.parent_a h.parent_b).symm, .rel _ _ (.inl h.parent_a),
        (visible_iff_root h.parent_a h.parent_b).symm⟩
    · obtain ⟨ecb', hget, hnext, hmeasure, hjoined, hvisible⟩ := h.step hlt
      obtain ⟨r, EC', hloop, hdown, hlength, hclasses, hr, hroot⟩ := ih hnext (by omega)
      refine ⟨r, EC', ?_, hdown, by rw [hlength, length_set],
        fun x y => (hclasses x y).trans (hjoined x y), (hjoined a r).mp hr, hroot.trans hvisible⟩
      rw [show (EC.set b eca)[ecb]? = some ecb' from hget, Option.bind_some, hloop]
    · obtain ⟨eca', hget, hnext, hmeasure, hjoined, hvisible⟩ := h.symm.step (by omega)
      obtain ⟨r, EC', hloop, hdown, hlength, hclasses, hr, hroot⟩ := ih hnext.symm (by omega)
      have hwith : ∀ x y, JoinedWith (EC.set a ecb) eca b x y ↔ JoinedWith EC a b x y :=
        fun x y => joinedWith_symm.trans ((hjoined x y).trans joinedWith_symm)
      refine ⟨r, EC', ?_, hdown, by rw [hlength, length_set],
        fun x y => (hclasses x y).trans (hwith x y), ?_,
        hroot.trans (visible_symm.trans (hvisible.trans visible_symm))⟩
      · rw [show (EC.set a ecb)[eca]? = some eca' from hget, Option.bind_some, hloop]
      · exact .trans _ _ _ (.rel _ _ (.inl h.parent_a)) ((hwith eca r).mp hr)

/-! ## Numbers of classes -/

/-- The number of leaders in front of an integer. -/
def rank (EC : List Nat) (i : Nat) : Nat := Nat.count (fun x => Parent EC x x) i

theorem rank_lt_rank (hl : Parent EC l l) (hlt : l < x) : rank EC l < rank EC x :=
  Nat.count_strict_mono hl hlt

theorem rank_succ (i : Nat) : rank EC (i + 1) = rank EC i + if Parent EC i i then 1 else 0 :=
  Nat.count_succ _ i

theorem exists_rank {k n : Nat} (h : k < rank EC n) : ∃ l < n, Parent EC l l ∧ rank EC l = k := by
  induction n with
  | zero => exact absurd h (Nat.not_lt_zero k)
  | succ n ih =>
    rw [rank_succ] at h
    by_cases hk : k < rank EC n
    · obtain ⟨l, hl, hroot, hrank⟩ := ih hk
      exact ⟨l, by omega, hroot, hrank⟩
    · split_ifs at h with hroot
      · exact ⟨n, by omega, hroot, by omega⟩
      · omega

/-- The first `i` integers are mapped to the numbers of their leaders. -/
def Numbered (EC EC' : List Nat) (i : Nat) : Prop :=
  EC'.length = EC.length ∧ ∀ j < i, ∀ l, Leader EC j l → EC'[j]? = some (rank EC l)

theorem compressTo_spec (hD : Down EC) {i : Nat} (hi : i ≤ EC.length) :
    ∃ EC', compressTo EC i = some (EC', rank EC i) ∧ Numbered EC EC' i ∧
      ∀ j, i ≤ j → EC'[j]? = EC[j]? := by
  induction i with
  | zero => exact ⟨EC, rfl, ⟨rfl, fun j hj => absurd hj (Nat.not_lt_zero j)⟩, fun _ _ => rfl⟩
  | succ i ih =>
    obtain ⟨EC', hto, ⟨hlength, hnumbered⟩, hrest⟩ := ih (by omega)
    obtain ⟨p, hp⟩ := exists_parent (show i < EC.length by omega)
    have hget : EC'[i]? = some p := (hrest i le_rfl).trans hp
    -- the entry of the round gets the number of its leader
    have hset : ∀ c, (∀ l, Leader EC i l → c = rank EC l) →
        Numbered EC (EC'.set i c) (i + 1) ∧ ∀ j, i + 1 ≤ j → (EC'.set i c)[j]? = EC[j]? := by
      refine fun c hc => ⟨⟨by rw [length_set, hlength], fun j hj l hl => ?_⟩, fun j hj => ?_⟩
      · by_cases hji : j = i
        · subst hji
          rw [getElem?_set_self (by omega), hc l hl]
        · rw [getElem?_set_ne (Ne.symm hji)]
          exact hnumbered j (by omega) l hl
      · rw [getElem?_set_ne (by omega)]
        exact hrest j (by omega)
    rw [compressTo, hto, Option.bind_some]
    dsimp only
    rw [hget, Option.bind_some, rank_succ]
    split_ifs with heq hroot hroot
    · refine ⟨_, rfl, hset _ fun l hl => ?_⟩
      rw [(leader_root_iff hroot).mp hl]
    · exact absurd (heq ▸ hp) hroot
    · exact absurd (hp.unique hroot) heq
    · have hpi : p < i := lt_of_le_of_ne (hD hp) heq
      obtain ⟨l, hl⟩ := hD.exists_leader (a := p) (by omega)
      rw [hnumbered p hpi l hl, Option.map_some]
      refine ⟨_, rfl, hset _ fun m hm => ?_⟩
      rw [hl.unique ((leader_parent_iff hp).mp hm)]

theorem uncompressTo_spec (hD : Down EC) {EC' : List Nat} (hnumbered : Numbered EC EC' EC.length)
    {i : Nat} (hi : i ≤ EC.length) :
    ∃ EC'' leaders, uncompressTo EC' i = some (EC'', leaders) ∧ EC''.length = EC.length ∧
      leaders.length = rank EC i ∧ (∀ l < i, Parent EC l l → leaders[rank EC l]? = some l) ∧
      (∀ j < i, ∀ l, Leader EC j l → EC''[j]? = some l) ∧ ∀ j, i ≤ j → EC''[j]? = EC'[j]? := by
  induction i with
  | zero => exact ⟨EC', [], rfl, hnumbered.1, rfl, by simp, by simp, fun _ _ => rfl⟩
  | succ i ih =>
    obtain ⟨EC'', leaders, hto, hlength, hcount, hleaders, hdone, hrest⟩ := ih (by omega)
    obtain ⟨l, hl⟩ := hD.exists_leader (a := i) (by omega)
    have hget : EC''[i]? = some (rank EC l) :=
      (hrest i le_rfl).trans (hnumbered.2 i (by omega) l hl)
    have hset : (EC''.set i l).length = EC.length ∧
        (∀ j < i + 1, ∀ m, Leader EC j m → (EC''.set i l)[j]? = some m) ∧
        ∀ j, i + 1 ≤ j → (EC''.set i l)[j]? = EC'[j]? := by
      refine ⟨by rw [length_set, hlength], fun j hj m hm => ?_, fun j hj => ?_⟩
      · by_cases hji : j = i
        · subst hji
          rw [getElem?_set_self (by omega), hl.unique hm]
        · rw [getElem?_set_ne (Ne.symm hji)]
          exact hdone j (by omega) m hm
      · rw [getElem?_set_ne (by omega)]
        exact hrest j (by omega)
    rw [uncompressTo, hto, Option.bind_some]
    dsimp only
    rw [hget, Option.map_some, rank_succ]
    rcases (hD.transGen_le hl.1).eq_or_lt with heq | hlt
    · subst heq
      rw [getElem?_eq_none hcount.le, if_pos hl.2]
      refine ⟨_, _, rfl, hset.1, by rw [length_append, hcount]; rfl, fun m hm hroot => ?_, hset.2⟩
      rcases (Nat.lt_succ_iff.mp hm).eq_or_lt with rfl | hlt
      · rw [getElem?_append_right hcount.le, hcount, Nat.sub_self]
        rfl
      · rw [getElem?_append_left (hcount ▸ rank_lt_rank hroot hlt)]
        exact hleaders m hlt hroot
    · have hroot : ¬ Parent EC i i := fun hroot => hlt.ne ((leader_root_iff hroot).mp hl)
      rw [hleaders l hlt hl.2, if_neg hroot]
      refine ⟨_, _, rfl, hset.1, hcount, fun m hm hroot' => ?_, hset.2⟩
      refine hleaders m (lt_of_le_of_ne (Nat.lt_succ_iff.mp hm) fun heq => ?_) hroot'
      exact hroot (heq ▸ hroot')

/-! ## Runs -/

/-- The calls that change the map. -/
inductive Call
  | grow (N : Nat)
  | join (a b : Nat)

def Call.apply (s : IntEqClasses) : Call → Option IntEqClasses
  | .grow N => s.grow N
  | .join a b => (s.join a b).map Prod.snd

def run (s : IntEqClasses) (calls : List Call) : Option IntEqClasses := calls.foldlM Call.apply s

def Call.joins : Call → List (Nat × Nat)
  | .grow _ => []
  | .join a b => [(a, b)]

/-- The state of a map whose classes are those of some joins. -/
structure Represents (s : IntEqClasses) (joins : List (Nat × Nat)) : Prop where
  numClasses : s.NumClasses = 0
  down : Down s.EC
  joined : ∀ x y, Joined s.EC x y ↔ Generated joins x y

variable {s : IntEqClasses} {joins : List (Nat × Nat)} {n : Nat}

theorem represents_new (N : Nat) : Represents (new N) [] := by
  have hparent : ∀ x y, Parent (List.range' 0 N) x y → x = y := by
    intro x y h
    obtain ⟨hx, hget⟩ := List.getElem?_eq_some_iff.mp h
    rw [getElem_range'] at hget
    omega
  refine ⟨rfl, fun x y h => (hparent x y h).ge, fun x y => ⟨eqvGen_le fun x y h => ?_,
    eqvGen_le fun x y h => absurd h not_mem_nil⟩⟩
  exact hparent x y h ▸ .refl x

theorem Represents.grow (h : Represents s joins) (N : Nat) :
    ∃ s', s.grow N = some s' ∧ Represents s' joins := by
  refine ⟨_, if_pos h.numClasses, h.numClasses, ?_, fun x y => ?_⟩
  all_goals
    have hparent : ∀ x y, Parent (s.EC ++ List.range' s.EC.length (N - s.EC.length)) x y →
        Parent s.EC x y ∨ x = y := by
      intro x y hxy
      unfold Parent at hxy
      rw [getElem?_append] at hxy
      split_ifs at hxy with hx
      · exact .inl hxy
      · obtain ⟨hx', hget⟩ := List.getElem?_eq_some_iff.mp hxy
        rw [getElem_range'] at hget
        exact .inr (by omega)
  · intro x y hxy
    exact (hparent x y hxy).elim (fun hxy => h.down hxy) Eq.ge
  · rw [← h.joined]
    refine ⟨eqvGen_le fun x y hxy => ?_, eqvGen_le fun x y hxy => ?_⟩
    · rcases hparent x y hxy with hold | rfl
      · exact .rel _ _ hold
      · exact .refl x
    · refine .rel _ _ ?_
      unfold Parent
      rwa [getElem?_append_left hxy.lt_length]

theorem Represents.join (h : Represents s joins) (ha : a < s.EC.length) (hb : b < s.EC.length) :
    ∃ r s', s.join a b = some (r, s') ∧ Represents s' (joins ++ [(a, b)]) ∧
      s'.EC.length = s.EC.length ∧
      (Least (Generated (joins ++ [(a, b)])) a r ↔ Visible s.EC a b) := by
  obtain ⟨eca, heca⟩ := exists_parent ha
  obtain ⟨ecb, hecb⟩ := exists_parent hb
  obtain ⟨r, EC', hloop, hdown, hlength, hjoined, hr, hroot⟩ :=
    joinLoop_spec ⟨h.down, heca, hecb⟩ (Nat.lt_succ_self _)
  have hgenerated : ∀ x y, JoinedWith s.EC a b x y ↔ Generated (joins ++ [(a, b)]) x y := by
    refine fun x y => ⟨eqvGen_le fun x y hxy => ?_, eqvGen_le fun x y hxy => ?_⟩
    · rcases hxy with hparent | ⟨rfl, rfl⟩
      · have hold := (h.joined x y).mp (.rel _ _ hparent)
        exact eqvGen_le (fun x y hxy => .rel _ _ (mem_append_left _ hxy)) hold
      · exact .rel _ _ (mem_append_right _ mem_cons_self)
    · rcases List.mem_append.mp hxy with hold | hnew
      · have hold := (h.joined x y).mpr (.rel _ _ hold)
        exact eqvGen_le (fun x y hxy => .rel _ _ (.inl hxy)) hold
      · obtain ⟨rfl, rfl⟩ := Prod.mk.inj (List.mem_singleton.mp hnew)
        exact .rel _ _ (.inr ⟨rfl, rfl⟩)
  have hclasses : ∀ x y, Joined EC' x y ↔ Generated (joins ++ [(a, b)]) x y :=
    fun x y => (hjoined x y).trans (hgenerated x y)
  refine ⟨r, ⟨EC', s.NumClasses⟩, ?_, ⟨h.numClasses, hdown, hclasses⟩, hlength, ?_⟩
  · rw [IntEqClasses.join, if_pos h.numClasses, show s.EC[a]? = some eca from heca,
      Option.bind_some, show s.EC[b]? = some ecb from hecb, Option.bind_some, hloop,
      Option.map_some]
  · rw [← hroot, show Generated (joins ++ [(a, b)]) = Joined EC' from
      funext₂ fun x y => propext (hclasses x y).symm, least_iff_leader hdown (hlength ▸ ha)]
    have har : Joined EC' a r := (hjoined a r).mpr hr
    rw [leader_congr har]
    exact ⟨And.right, fun hp => (leader_root_iff hp).mpr rfl⟩

theorem Represents.apply {s' : IntEqClasses} {c : Call} (h : Represents s joins)
    (hc : c.apply s = some s') : Represents s' (joins ++ c.joins) := by
  cases c with
  | grow N =>
    obtain ⟨t, ht, hrep⟩ := h.grow N
    obtain rfl := Option.some.inj (ht.symm.trans hc)
    rwa [Call.joins, append_nil]
  | join a b =>
    obtain ⟨⟨r, t⟩, hjoin, rfl⟩ := Option.map_eq_some_iff.mp hc
    have hbounds : a < s.EC.length ∧ b < s.EC.length := by
      rw [IntEqClasses.join, if_pos h.numClasses] at hjoin
      obtain ⟨eca, heca, hjoin⟩ := Option.bind_eq_some_iff.mp hjoin
      obtain ⟨ecb, hecb, -⟩ := Option.bind_eq_some_iff.mp hjoin
      exact ⟨Parent.lt_length heca, Parent.lt_length hecb⟩
    obtain ⟨r', t', hjoin', hrep, -⟩ := h.join hbounds.1 hbounds.2
    obtain ⟨-, rfl⟩ := Prod.mk.inj (Option.some.inj (hjoin.symm.trans hjoin'))
    exact hrep

theorem Represents.run {s' : IntEqClasses} {calls : List Call} (h : Represents s joins)
    (hrun : run s calls = some s') : Represents s' (joins ++ calls.flatMap Call.joins) := by
  induction calls generalizing s joins with
  | nil =>
    obtain rfl := Option.some.inj hrun
    simpa using h
  | cons c calls ih =>
    obtain ⟨t, ht, hrest⟩ := Option.bind_eq_some_iff.mp hrun
    rw [flatMap_cons, ← append_assoc]
    exact ih (h.apply ht) hrest

/-- The numbers of the classes, in the order of their smallest members. -/
structure Numbers (c : IntEqClasses) (R : Nat → Nat → Prop) (n : Nat) : Prop where
  length : c.EC.length = n
  lt : ∀ a < n, ∃ k < c.NumClasses, c.EC[a]? = some k
  onto : ∀ k < c.NumClasses, ∃ a < n, c.EC[a]? = some k
  order : ∀ a b j k l m, c.EC[a]? = some j → c.EC[b]? = some k → Least R a l → Least R b m →
    (j < k ↔ l < m)

/-- What the functions should do with the classes of a map. -/
structure Correct (s : IntEqClasses) (R : Nat → Nat → Prop) : Prop where
  findLeader : ∀ a < s.EC.length, ∃ l, s.findLeader a = some l ∧ Least R a l
  compress : ∃ c u, s.compress = some c ∧ Numbers c R s.EC.length ∧
    c.uncompress = some u ∧ u.EC.length = s.EC.length ∧
    ∀ a < s.EC.length, ∃ l, u.findLeader a = some l ∧ u.EC[a]? = some l ∧ Least R a l

theorem Represents.least (h : Represents s joins) {l : Nat} (ha : a < s.EC.length) :
    Least (Generated joins) a l ↔ Leader s.EC a l := by
  rw [← least_iff_leader h.down ha, show Generated joins = Joined s.EC from
    funext₂ fun x y => propext (h.joined x y).symm]

theorem Represents.correct (h : Represents s joins) : Correct s (Generated joins) := by
  have hD := h.down
  refine ⟨fun a ha => ?_, ?_⟩
  · obtain ⟨l, hl⟩ := hD.exists_leader ha
    refine ⟨l, ?_, (h.least ha).mpr hl⟩
    rw [IntEqClasses.findLeader, if_pos h.numClasses,
      findLeaderLoop_spec hD (Nat.lt_succ_self a) hl]
  obtain ⟨EC', hto, hnumbered, -⟩ := compressTo_spec hD (le_refl s.EC.length)
  have hcompress : s.compress = some ⟨EC', rank s.EC s.EC.length⟩ := by
    rw [IntEqClasses.compress, if_neg (not_not.mpr h.numClasses), hto, Option.map_some]
  -- every number is that of a leader
  have hget : ∀ {a j}, EC'[a]? = some j → ∃ l, Leader s.EC a l ∧ j = rank s.EC l := by
    intro a j haj
    have ha : a < s.EC.length := hnumbered.1 ▸ (List.getElem?_eq_some_iff.mp haj).1
    obtain ⟨l, hl⟩ := hD.exists_leader ha
    exact ⟨l, hl, Option.some.inj (haj.symm.trans (hnumbered.2 a ha l hl))⟩
  have hnumbers : Numbers ⟨EC', rank s.EC s.EC.length⟩ (Generated joins) s.EC.length := by
    refine ⟨hnumbered.1, fun a ha => ?_, fun k hk => ?_, fun a b j k l m haj hbk hl hm => ?_⟩
    · obtain ⟨l, hl⟩ := hD.exists_leader ha
      exact ⟨_, rank_lt_rank hl.2 hl.2.lt_length, hnumbered.2 a ha l hl⟩
    · obtain ⟨l, hlt, hroot, rfl⟩ := exists_rank hk
      exact ⟨l, hlt, hnumbered.2 l hlt l ((leader_root_iff hroot).mpr rfl)⟩
    · obtain ⟨l', hl', rfl⟩ := hget haj
      obtain ⟨m', hm', rfl⟩ := hget hbk
      have ha : a < s.EC.length := hnumbered.1 ▸ (List.getElem?_eq_some_iff.mp haj).1
      have hb : b < s.EC.length := hnumbered.1 ▸ (List.getElem?_eq_some_iff.mp hbk).1
      obtain rfl := ((h.least ha).mp hl).unique hl'
      obtain rfl := ((h.least hb).mp hm).unique hm'
      exact ⟨Nat.lt_of_count_lt_count, rank_lt_rank hl'.2⟩
  by_cases hempty : rank s.EC s.EC.length = 0
  · have hlength : s.EC.length = 0 := by
      by_contra hne
      obtain ⟨l, hl⟩ := hD.exists_leader (Nat.pos_of_ne_zero hne)
      have := rank_lt_rank hl.2 hl.2.lt_length
      omega
    exact ⟨_, _, hcompress, hnumbers, if_pos hempty, hnumbered.1, fun a ha => by omega⟩
  · obtain ⟨EC'', leaders, hback, hlength, -, -, hdone, -⟩ :=
      uncompressTo_spec hD hnumbered (le_refl s.EC.length)
    refine ⟨_, ⟨EC'', 0⟩, hcompress, hnumbers, ?_, hlength, fun a ha => ?_⟩
    · rw [IntEqClasses.uncompress, if_neg hempty]
      simp only [hnumbered.1, hback, Option.map_some]
    · obtain ⟨l, hl⟩ := hD.exists_leader ha
      have hlead : ∀ j < s.EC.length, ∀ l, Leader s.EC j l → Parent EC'' j l := hdone
      have hla := hlead a ha l hl
      have hll := hlead l hl.2.lt_length l ((leader_root_iff hl.2).mpr rfl)
      have hdown : Down EC'' := by
        intro j p hp
        have hj : j < s.EC.length := hlength ▸ hp.lt_length
        obtain ⟨m, hm⟩ := hD.exists_leader hj
        rw [hp.unique (hlead j hj m hm)]
        exact hD.transGen_le hm.1
      refine ⟨l, ?_, hla, (h.least ha).mpr hl⟩
      exact findLeaderLoop_spec hdown (Nat.lt_succ_self a) ⟨.single hla, hll⟩

/-- In every run the leaders and the numbers of the classes are those of the joins, and a join
returns the smallest member of the class exactly when it is visible. -/
theorem run_correct {N : Nat} {calls : List Call} (h : run (new N) calls = some s) :
    Correct s (Generated (calls.flatMap Call.joins)) ∧
      ∀ a b, a < s.EC.length → b < s.EC.length → ∃ r s', s.join a b = some (r, s') ∧
        (Least (Generated (calls.flatMap Call.joins ++ [(a, b)])) a r ↔ Visible s.EC a b) := by
  have hrep := (represents_new N).run h
  refine ⟨hrep.correct, fun a b ha hb => ?_⟩
  obtain ⟨r, s', hjoin, -, -, hleast⟩ := hrep.join ha hb
  exact ⟨r, s', hjoin, hleast⟩

/-- Joins after which 3 and 4 point to 2, which is no leader. -/
abbrev threeJoins : List Call := [.join 2 3, .join 2 4, .join 1 2]

theorem run_threeJoins : run (new 5) threeJoins = some ⟨[0, 1, 1, 2, 2], 0⟩ := by decide

theorem threeJoins_correct :
    Correct ⟨[0, 1, 1, 2, 2], 0⟩ (Generated (threeJoins.flatMap Call.joins)) ∧
      ∀ a b, a < 5 → b < 5 → ∃ r s', join ⟨[0, 1, 1, 2, 2], 0⟩ a b = some (r, s') ∧
        (Least (Generated (threeJoins.flatMap Call.joins ++ [(a, b)])) a r ↔
          Visible [0, 1, 1, 2, 2] a b) :=
  run_correct run_threeJoins

/-- A join of 3 and 4 then returns 2, and 1 is in their class. -/
theorem join_not_least :
    ¬ ∀ (N : Nat) (calls : List Call) (s s' : IntEqClasses) (a b r : Nat),
      run (new N) calls = some s → s.join a b = some (r, s') →
      Least (Generated (calls.flatMap Call.joins ++ [(a, b)])) a r := by
  intro h
  have hleast := h 5 threeJoins _ ⟨[0, 1, 1, 2, 2], 0⟩ 3 4 2 run_threeJoins (by decide)
  have hle : 2 ≤ 1 := by
    have h₃ : Generated (threeJoins.flatMap Call.joins ++ [(3, 4)]) 3 2 :=
      Generated.symm (.of_mem (by decide))
    exact hleast.2 (h₃.trans (Generated.symm (.of_mem (by decide))))
  exact absurd hle (by decide)

end IntEqClasses

end Zapcc
