import Mathlib.Data.List.Perm.Subperm
import Mathlib.Data.List.Sort
import Zapcc.Library.GeneratedEquivalence

/-!
# Equivalence classes

A class is a tree of pointers to its leader and a chain of all its members, which begins at the
leader. The operations keep the equivalence that the unions generate (`Represents`). The main
result is `run_faithful`: this holds of all objects in every run without a self-assignment.
-/

namespace Zapcc

open GeneratedEquivalence List Function

variable {α : Type*}

/-- A node but for its value. A pointer to a node is the value of the node. -/
structure ECValue (α : Type*) where
  Leader : α
  Next : Option α
  isLeader : Bool

/-- The values of the set in their order, and their nodes. -/
structure EquivalenceClasses (α : Type*) where
  values : List α
  node : α → ECValue α

namespace EquivalenceClasses

/-! ## The code -/

section Code

variable [LinearOrder α]

/-- An object without values. -/
def empty : EquivalenceClasses α := ⟨[], fun v => ⟨v, none, true⟩⟩

def setLeader (EC : EquivalenceClasses α) (v l : α) : EquivalenceClasses α :=
  { EC with node := update EC.node v { EC.node v with Leader := l } }

def setNext (EC : EquivalenceClasses α) (v : α) (n : α) : EquivalenceClasses α :=
  { EC with node := update EC.node v { EC.node v with Next := some n } }

def clearLeader (EC : EquivalenceClasses α) (v : α) : EquivalenceClasses α :=
  { EC with node := update EC.node v { EC.node v with isLeader := false } }

def insert (EC : EquivalenceClasses α) (v : α) : EquivalenceClasses α :=
  if v ∈ EC.values then EC
  else ⟨EC.values.orderedInsert (· ≤ ·) v, update EC.node v ⟨v, none, true⟩⟩

/-- `getLeader` with its path compression. -/
def getLeader : Nat → EquivalenceClasses α → α → Option (α × EquivalenceClasses α)
  | 0, _, _ => none
  | fuel + 1, EC, v =>
    if (EC.node v).isLeader then some (v, EC)
    else if (EC.node (EC.node v).Leader).isLeader then some ((EC.node v).Leader, EC)
    else (getLeader fuel EC (EC.node v).Leader).map fun (l, EC) => (l, EC.setLeader v l)

/-- `findLeader` of a value. The result without a leader is the end iterator. -/
def findLeader (EC : EquivalenceClasses α) (v : α) : Option (Option α × EquivalenceClasses α) :=
  if v ∈ EC.values then (EC.getLeader (EC.values.length + 1) v).map fun (l, EC) => (some l, EC)
  else some (none, EC)

/-- `unionSets` of two leaders. -/
def unionLeaders (EC : EquivalenceClasses α) (L1 L2 : α) : Option (EquivalenceClasses α) :=
  if L1 = L2 then some EC
  else if (EC.node L1).isLeader && (EC.node (EC.node L1).Leader).Next.isNone &&
      (EC.node L2).isLeader then
    some ((((EC.setNext (EC.node L1).Leader L2).setLeader L1 (EC.node L2).Leader).clearLeader
      L2).setLeader L2 L1)
  else none

/-- `unionSets` of two values. -/
def unionSets (EC : EquivalenceClasses α) (V1 V2 : α) : Option (EquivalenceClasses α) :=
  (((EC.insert V1).insert V2).findLeader V1).bind fun (L1, EC) =>
    (EC.findLeader V2).bind fun (L2, EC) =>
      L1.bind fun L1 => L2.bind fun L2 => EC.unionLeaders L1 L2

def isEquivalent (EC : EquivalenceClasses α) (V1 V2 : α) :
    Option (Bool × EquivalenceClasses α) :=
  if V1 = V2 then some (true, EC)
  else
    (EC.findLeader V1).bind fun (It, EC) =>
      if It.isNone then some (false, EC)
      else (EC.findLeader V2).map fun (It', EC) => (decide (It = It'), EC)

/-- The loop over the members of a class in the copy. -/
def copyMembers (RHS : EquivalenceClasses α) (L : α) :
    Nat → EquivalenceClasses α → Option α → Option (EquivalenceClasses α)
  | 0, _, _ => none
  | _ + 1, EC, none => some EC
  | fuel + 1, EC, some v =>
    if ((EC.insert v).node v).isLeader then
      ((EC.insert v).unionLeaders L v).bind fun EC =>
        copyMembers RHS L fuel EC (RHS.node v).Next
    else none

/-- The body of the loop over the values in the copy. -/
def copyClass (RHS EC : EquivalenceClasses α) (v : α) : Option (EquivalenceClasses α) :=
  if (RHS.node v).isLeader then
    if ((EC.insert v).node v).isLeader then
      copyMembers RHS v (RHS.values.length + 1) (EC.insert v) (RHS.node v).Next
    else none
  else some EC

/-- The copy assignment behind the `clear`. -/
def copyFrom (RHS : EquivalenceClasses α) : Option (EquivalenceClasses α) :=
  RHS.values.foldlM (copyClass RHS) empty

end Code

/-! ## Paths and chains -/

variable {EC EC' : EquivalenceClasses α} {v w l m x y n : α} {L L' : List α}

/-- The path of pointers from a value to its leader, with its length. -/
inductive Leads (EC : EquivalenceClasses α) : Nat → α → α → Prop
  | leader {v : α} (hv : v ∈ EC.values) (hl : (EC.node v).isLeader = true) : Leads EC 0 v v
  | step {v l : α} {n : Nat} (hv : v ∈ EC.values) (hl : (EC.node v).isLeader = false)
      (h : Leads EC n (EC.node v).Leader l) : Leads EC (n + 1) v l

/-- The members that a chain of pointers visits. -/
inductive Chain (EC : EquivalenceClasses α) : Option α → List α → Prop
  | nil : Chain EC none []
  | cons {v : α} {L : List α} (h : Chain EC (EC.node v).Next L) : Chain EC (some v) (v :: L)

theorem Leads.isLeader {k : Nat} (h : Leads EC k v l) :
    l ∈ EC.values ∧ (EC.node l).isLeader = true := by
  induction h with
  | leader hv hl => exact ⟨hv, hl⟩
  | step _ _ _ ih => exact ih

theorem Leads.unique {j k : Nat} (h : Leads EC j v l) (h' : Leads EC k v m) :
    j = k ∧ l = m := by
  induction h generalizing k m with
  | leader _ hl =>
    cases h' with
    | leader => exact ⟨rfl, rfl⟩
    | step _ hl' => rw [hl] at hl'; cases hl'
  | step _ hl _ ih =>
    cases h' with
    | leader _ hl' => rw [hl] at hl'; cases hl'
    | step _ _ h' =>
      obtain ⟨rfl, rfl⟩ := ih h'
      exact ⟨rfl, rfl⟩

theorem Leads.lt_length {k : Nat} (h : Leads EC k v l) : k < EC.values.length := by
  have hpath : ∃ P : List α, P.Nodup ∧ P.length = k + 1 ∧
      ∀ x ∈ P, x ∈ EC.values ∧ ∃ j ≤ k, Leads EC j x l := by
    induction h with
    | @leader v hv hl => exact ⟨[v], nodup_singleton v, rfl, by
        simpa using ⟨hv, Leads.leader hv hl⟩⟩
    | @step v l n hv hl h ih =>
      obtain ⟨P, hnodup, hlength, hmem⟩ := ih
      refine ⟨v :: P, List.nodup_cons.mpr ⟨fun hvP => ?_, hnodup⟩, by rw [length_cons, hlength],
        List.forall_mem_cons.mpr ⟨⟨hv, n + 1, le_rfl, .step hv hl h⟩, fun x hx => ?_⟩⟩
      · obtain ⟨-, j, hj, hleads⟩ := hmem v hvP
        have := (hleads.unique (.step hv hl h)).1
        omega
      · obtain ⟨hx, j, hj, hleads⟩ := hmem x hx
        exact ⟨hx, j, by omega, hleads⟩
  obtain ⟨P, hnodup, hlength, hmem⟩ := hpath
  have hle := (hnodup.subperm fun x hx => (hmem x hx).1).length_le
  omega

theorem Chain.congr {o : Option α} (h : Chain EC o L)
    (hnext : ∀ x ∈ L, (EC'.node x).Next = (EC.node x).Next) : Chain EC' o L := by
  induction h with
  | nil => exact .nil
  | @cons v L h ih =>
    refine .cons ?_
    rw [hnext v mem_cons_self]
    exact ih fun x hx => hnext x (mem_cons_of_mem v hx)

theorem Chain.last_next {o : Option α} (h : Chain EC o L) (hlast : L.getLast? = some x) :
    (EC.node x).Next = none := by
  induction h with
  | nil => cases hlast
  | @cons v L h ih =>
    cases L with
    | nil =>
      obtain rfl : v = x := by simpa using hlast
      cases hnext : (EC.node v).Next with
      | none => rfl
      | some w => rw [hnext] at h; cases h
    | cons w L => exact ih (by rwa [getLast?_cons_cons] at hlast)

theorem Chain.append {o : Option α} (h : Chain EC o L) (hnodup : L.Nodup)
    (hlast : L.getLast? = some x) (hx : (EC'.node x).Next = some y)
    (hnext : ∀ z ∈ L, z ≠ x → (EC'.node z).Next = (EC.node z).Next)
    (h' : Chain EC' (some y) L') : Chain EC' o (L ++ L') := by
  induction h with
  | nil => cases hlast
  | @cons v L h ih =>
    obtain ⟨hv, hnodup⟩ := List.nodup_cons.mp hnodup
    refine .cons ?_
    cases L with
    | nil =>
      obtain rfl : v = x := by simpa using hlast
      rwa [hx]
    | cons w L =>
      have hne : v ≠ x := fun heq => hv (heq ▸ mem_of_getLast? hlast)
      rw [hnext v mem_cons_self hne]
      exact ih hnodup hlast fun z hz => hnext z (mem_cons_of_mem v hz)

/-! ## The invariant -/

variable {joins joins' : List (α × α)}

/-- The nodes after a union of different leaders. -/
def united (EC : EquivalenceClasses α) [DecidableEq α] (l m : α) : EquivalenceClasses α where
  values := EC.values
  node x :=
    { Leader := if x = m then l else if x = l then (EC.node m).Leader else (EC.node x).Leader
      Next := if x = (EC.node l).Leader then some m else (EC.node x).Next
      isLeader := if x = m then false else (EC.node x).isLeader }

/-- The nodes stand for the equivalence that pairs generate. -/
structure Represents (EC : EquivalenceClasses α) (joins : List (α × α)) : Prop where
  nodup : EC.values.Nodup
  leads : ∀ v ∈ EC.values, ∃ k l, Leads EC k v l ∧ Generated joins v l
  unique : ∀ l m, l ∈ EC.values → m ∈ EC.values → (EC.node l).isLeader = true →
    (EC.node m).isLeader = true → Generated joins l m → l = m
  chain : ∀ l ∈ EC.values, (EC.node l).isLeader = true → ∃ L, Chain EC (some l) L ∧ L.Nodup ∧
    (∀ x, x ∈ L ↔ x ∈ EC.values ∧ Generated joins l x) ∧ L.getLast? = some (EC.node l).Leader
  closed : ∀ v w, (v, w) ∈ joins → v ∈ EC.values ∧ w ∈ EC.values

/-- Only pointers of nodes that are no leaders differ, as after path compression. -/
structure Compressed (EC EC' : EquivalenceClasses α) : Prop where
  values : EC'.values = EC.values
  isLeader : ∀ v, (EC'.node v).isLeader = (EC.node v).isLeader
  next : ∀ v, (EC'.node v).Next = (EC.node v).Next
  leads : ∀ k v l, Leads EC k v l → ∃ j, Leads EC' j v l

theorem Compressed.refl (EC : EquivalenceClasses α) : Compressed EC EC :=
  ⟨rfl, fun _ => rfl, fun _ => rfl, fun k _ _ h => ⟨k, h⟩⟩

theorem Compressed.trans {EC'' : EquivalenceClasses α} (h : Compressed EC EC')
    (h' : Compressed EC' EC'') : Compressed EC EC'' :=
  ⟨h'.values.trans h.values, fun v => (h'.isLeader v).trans (h.isLeader v),
    fun v => (h'.next v).trans (h.next v), fun k v l hk =>
      let ⟨j, hj⟩ := h.leads k v l hk
      h'.leads j v l hj⟩

/-- The values that an object should have, and the unions that were made. -/
structure History (α : Type*) where
  inserted : List α
  unions : List (α × α)

/-- The object and its history. -/
structure Tracks (EC : EquivalenceClasses α) (H : History α) : Prop where
  represents : Represents EC H.unions
  values : ∀ x, x ∈ EC.values ↔ x ∈ H.inserted

theorem tracks_update {objs : Nat → EquivalenceClasses α} {H : Nat → History α} {i : Nat}
    {hist : History α} (h : ∀ j, Tracks (objs j) (H j)) (hi : Tracks EC hist) (j : Nat) :
    Tracks (update objs i EC j) (update H i hist j) := by
  by_cases hj : j = i
  · subst hj
    rwa [update_self, update_self]
  · rw [update_of_ne hj, update_of_ne hj]
    exact h j

namespace Represents

variable (h : Represents EC joins)

include h

theorem eq_of_generated (hvw : Generated joins v w) (hv : v ∉ EC.values) : v = w := by
  have hboth : ∀ {v w}, Generated joins v w → v = w ∨ (v ∈ EC.values ∧ w ∈ EC.values) := by
    intro v w hvw
    induction hvw with
    | rel _ _ hvw => exact .inr (h.closed _ _ hvw)
    | refl => exact .inl rfl
    | symm _ _ _ ih => exact ih.imp Eq.symm And.symm
    | trans _ _ _ _ _ ih ih' =>
      rcases ih with heq | hxy
      · exact heq ▸ ih'
      · rcases ih' with heq | hyz
        · exact heq ▸ .inr hxy
        · exact .inr ⟨hxy.1, hyz.2⟩
  exact (hboth hvw).resolve_right fun hmem => hv hmem.1

theorem congr (hjoins : ∀ x y, Generated joins x y ↔ Generated joins' x y)
    (hclosed : ∀ v w, (v, w) ∈ joins' → v ∈ EC.values ∧ w ∈ EC.values) :
    Represents EC joins' := by
  have heq : Generated joins' = Generated joins :=
    funext₂ fun x y => propext (hjoins x y).symm
  exact ⟨h.nodup, heq ▸ h.leads, heq ▸ h.unique, heq ▸ h.chain, hclosed⟩

variable [LinearOrder α]

theorem mem_of_generated (hvw : Generated joins v w) (hw : w ∈ EC.values) : v ∈ EC.values := by
  by_contra hv
  exact hv (h.eq_of_generated hvw hv ▸ hw)

theorem setLeader {k : Nat} (hv : Leads EC k v l) (hne : (EC.node v).isLeader = false) :
    Represents (EC.setLeader v l) joins ∧ Compressed EC (EC.setLeader v l) := by
  have hsame : ∀ w, ((EC.setLeader v l).node w).isLeader = (EC.node w).isLeader ∧
      ((EC.setLeader v l).node w).Next = (EC.node w).Next := by
    intro w
    by_cases hw : w = v
    · subst hw
      simp [EquivalenceClasses.setLeader]
    · simp [EquivalenceClasses.setLeader, update_of_ne hw]
  have hleads : ∀ j w m, Leads EC j w m → ∃ j, Leads (EC.setLeader v l) j w m := by
    intro j w m hw
    induction hw with
    | leader hw hl => exact ⟨0, .leader hw ((hsame _).1.trans hl)⟩
    | @step w m n hw hl hnext ih =>
      by_cases hwv : w = v
      · subst hwv
        obtain ⟨-, rfl⟩ := hv.unique (.step hw hl hnext)
        have hroot : Leads (EC.setLeader w l) 0 l l :=
          .leader hv.isLeader.1 ((hsame l).1.trans hv.isLeader.2)
        refine ⟨1, .step hw ((hsame w).1.trans hl) ?_⟩
        simpa [EquivalenceClasses.setLeader] using hroot
      · obtain ⟨j, hj⟩ := ih
        refine ⟨j + 1, .step hw ((hsame w).1.trans hl) ?_⟩
        simpa [EquivalenceClasses.setLeader, update_of_ne hwv] using hj
  have hcompressed : Compressed EC (EC.setLeader v l) :=
    ⟨rfl, fun w => (hsame w).1, fun w => (hsame w).2, hleads⟩
  refine ⟨⟨h.nodup, fun w hw => ?_, fun p q hp hq hlp hlq => ?_, fun p hp hlp => ?_, h.closed⟩,
    hcompressed⟩
  · obtain ⟨j, m, hwm, hgen⟩ := h.leads w hw
    obtain ⟨j, hj⟩ := hleads j w m hwm
    exact ⟨j, m, hj, hgen⟩
  · rw [hcompressed.isLeader] at hlp hlq
    exact h.unique p q hp hq hlp hlq
  · rw [hcompressed.isLeader] at hlp
    obtain ⟨L, hchain, hnodup, hmem, hlast⟩ := h.chain p hp hlp
    refine ⟨L, hchain.congr fun x _ => hcompressed.next x, hnodup, hmem, ?_⟩
    have hpv : p ≠ v := by
      rintro rfl
      rw [hlp] at hne
      cases hne
    rw [hlast]
    simp [EquivalenceClasses.setLeader, update_of_ne hpv]

theorem getLeader {k fuel : Nat} (hv : Leads EC k v l) (hfuel : k < fuel) :
    ∃ EC', EC.getLeader fuel v = some (l, EC') ∧ Represents EC' joins ∧ Compressed EC EC' := by
  induction fuel generalizing k v with
  | zero => exact absurd hfuel (Nat.not_lt_zero k)
  | succ fuel ih =>
    rw [EquivalenceClasses.getLeader]
    cases hv with
    | leader hmem hl => exact ⟨EC, by rw [if_pos hl], h, .refl EC⟩
    | @step _ _ n hmem hl hnext =>
      rw [if_neg (by rw [hl]; decide)]
      by_cases hparent : (EC.node (EC.node v).Leader).isLeader = true
      · rw [if_pos hparent]
        have hroot : Leads EC 0 (EC.node v).Leader (EC.node v).Leader := by
          cases hnext with
          | leader hmem hl => exact .leader hmem hl
          | step _ hl' => rw [hparent] at hl'; cases hl'
        rw [(hroot.unique hnext).2]
        exact ⟨EC, rfl, h, .refl EC⟩
      · rw [if_neg hparent]
        obtain ⟨EC', hget, hrep, hcompressed⟩ := ih hnext (by omega)
        obtain ⟨j, hj⟩ := hcompressed.leads _ v l (.step hmem hl hnext)
        obtain ⟨hset, hcompressed'⟩ := hrep.setLeader hj ((hcompressed.isLeader v).trans hl)
        exact ⟨EC'.setLeader v l, by rw [hget, Option.map_some], hset,
          hcompressed.trans hcompressed'⟩

theorem findLeader (hv : v ∈ EC.values) : ∃ l EC', EC.findLeader v = some (some l, EC') ∧
    l ∈ EC.values ∧ (EC.node l).isLeader = true ∧ Generated joins v l ∧ Represents EC' joins ∧
    Compressed EC EC' := by
  obtain ⟨k, l, hleads, hgen⟩ := h.leads v hv
  obtain ⟨EC', hget, hrep, hcompressed⟩ :=
    h.getLeader hleads (hleads.lt_length.trans (Nat.lt_succ_self _))
  refine ⟨l, EC', ?_, hleads.isLeader.1, hleads.isLeader.2, hgen, hrep, hcompressed⟩
  rw [EquivalenceClasses.findLeader, if_pos hv, hget, Option.map_some]

theorem insert (v : α) : Represents (EC.insert v) joins ∧
    (∀ x, x ∈ (EC.insert v).values ↔ x = v ∨ x ∈ EC.values) ∧
    ∀ x ∈ EC.values, (EC.insert v).node x = EC.node x := by
  by_cases hv : v ∈ EC.values
  · rw [EquivalenceClasses.insert, if_pos hv]
    exact ⟨h, fun x => ⟨.inr, fun hx => hx.elim (fun heq => heq ▸ hv) id⟩, fun _ _ => rfl⟩
  have hinsert : EC.insert v =
      ⟨EC.values.orderedInsert (· ≤ ·) v, update EC.node v ⟨v, none, true⟩⟩ := by
    rw [EquivalenceClasses.insert, if_neg hv]
  have hvalues : ∀ x, x ∈ (EC.insert v).values ↔ x = v ∨ x ∈ EC.values := fun x => by
    rw [hinsert, mem_orderedInsert]
  have hne : ∀ {x}, x ∈ EC.values → x ≠ v := fun hx heq => hv (heq ▸ hx)
  have hnode : ∀ x ∈ EC.values, (EC.insert v).node x = EC.node x := fun x hx => by
    rw [hinsert]
    exact update_of_ne (hne hx) _ _
  have hself : (EC.insert v).node v = ⟨v, none, true⟩ := by
    rw [hinsert]
    exact update_self _ _ _
  have halone : ∀ {x}, Generated joins v x → x = v := fun hx => (h.eq_of_generated hx hv).symm
  have hleads : ∀ {k w l}, Leads EC k w l → Leads (EC.insert v) k w l := by
    intro k w l hw
    induction hw with
    | leader hw hl => exact .leader ((hvalues _).mpr (.inr hw)) (by rwa [hnode _ hw])
    | step hw hl _ ih =>
      exact .step ((hvalues _).mpr (.inr hw)) (by rwa [hnode _ hw]) (by rwa [hnode _ hw])
  refine ⟨⟨?_, fun w hw => ?_, fun l m hl hm hll hlm hgen => ?_, fun l hl hll => ?_,
    fun x y hxy => ⟨(hvalues x).mpr (.inr (h.closed x y hxy).1),
      (hvalues y).mpr (.inr (h.closed x y hxy).2)⟩⟩, hvalues, hnode⟩
  · rw [hinsert]
    exact (perm_orderedInsert _ v _).nodup_iff.mpr (List.nodup_cons.mpr ⟨hv, h.nodup⟩)
  · rcases (hvalues w).mp hw with rfl | hw
    · exact ⟨0, w, .leader hw (by rw [hself]), .refl _ _⟩
    · obtain ⟨k, l, hk, hgen⟩ := h.leads w hw
      exact ⟨k, l, hleads hk, hgen⟩
  · rcases (hvalues l).mp hl with rfl | hl
    · exact (halone hgen).symm
    · rcases (hvalues m).mp hm with rfl | hm
      · exact halone hgen.symm
      · rw [hnode _ hl] at hll
        rw [hnode _ hm] at hlm
        exact h.unique l m hl hm hll hlm hgen
  · rcases (hvalues l).mp hl with rfl | hl'
    · refine ⟨[l], .cons (by rw [hself]; exact .nil), nodup_singleton l, fun x => ?_,
        by rw [hself]; rfl⟩
      rw [mem_singleton]
      refine ⟨?_, fun hx => halone hx.2⟩
      rintro rfl
      exact ⟨hl, .refl _ _⟩
    · rw [hnode _ hl'] at hll
      obtain ⟨L, hchain, hnodup, hmem, hlast⟩ := h.chain l hl' hll
      refine ⟨L, hchain.congr fun x hx => by rw [hnode x ((hmem x).mp hx).1], hnodup,
        fun x => ?_, by rw [hnode l hl', hlast]⟩
      rw [hmem, hvalues]
      refine ⟨fun hx => ⟨.inr hx.1, hx.2⟩, fun ⟨hx, hgen⟩ => ⟨hx.resolve_left ?_, hgen⟩⟩
      rintro rfl
      exact hne hl' (halone hgen.symm)

theorem unionLeaders (hl : l ∈ EC.values) (hm : m ∈ EC.values)
    (hll : (EC.node l).isLeader = true) (hlm : (EC.node m).isLeader = true)
    (hv : Generated joins v l) (hw : Generated joins w m) :
    ∃ EC', EC.unionLeaders l m = some EC' ∧ Represents EC' (joins ++ [(v, w)]) ∧
      EC'.values = EC.values ∧ (EC'.node l).isLeader = true := by
  have hclosed : ∀ x y, (x, y) ∈ joins ++ [(v, w)] → x ∈ EC.values ∧ y ∈ EC.values := by
    intro x y hxy
    rcases List.mem_append.mp hxy with hxy | hxy
    · exact h.closed x y hxy
    · obtain ⟨rfl, rfl⟩ := Prod.mk.inj (List.mem_singleton.mp hxy)
      exact ⟨h.mem_of_generated hv hl, h.mem_of_generated hw hm⟩
  have hjoined : ∀ x y, Generated (joins ++ [(v, w)]) x y ↔ Generated joins x y ∨
      (Generated joins x l ∧ Generated joins m y) ∨
        (Generated joins x m ∧ Generated joins l y) := by
    intro x y
    rw [generated_concat_iff]
    refine or_congr_right (or_congr (and_congr ?_ ?_) (and_congr ?_ ?_))
    · exact ⟨fun hx => hx.trans hv, fun hx => hx.trans hv.symm⟩
    · exact ⟨fun hy => hw.symm.trans hy, fun hy => hw.trans hy⟩
    · exact ⟨fun hx => hx.trans hw, fun hx => hx.trans hw.symm⟩
    · exact ⟨fun hy => hv.symm.trans hy, fun hy => hv.trans hy⟩
  by_cases hlm' : l = m
  · subst hlm'
    refine ⟨EC, if_pos rfl, h.congr (fun x y => ?_) hclosed, rfl, hll⟩
    rw [hjoined]
    refine ⟨.inl, ?_⟩
    rintro (hxy | ⟨hx, hy⟩ | ⟨hx, hy⟩)
    · exact hxy
    · exact hx.trans hy
    · exact hx.trans hy
  obtain ⟨Ll, hchainl, hnodupl, hmeml, hlastl⟩ := h.chain l hl hll
  obtain ⟨Lm, hchainm, hnodupm, hmemm, hlastm⟩ := h.chain m hm hlm
  have hend : Generated joins l (EC.node l).Leader :=
    ((hmeml _).mp (mem_of_getLast? hlastl)).2
  have hnotlm : ¬ Generated joins l m := fun hgen => hlm' (h.unique l m hl hm hll hlm hgen)
  have hunion : EC.unionLeaders l m = some (united EC l m) := by
    rw [EquivalenceClasses.unionLeaders, if_neg hlm', hll, hlm, hchainl.last_next hlastl,
      if_pos (show (true && (none : Option α).isNone && true) = true from rfl)]
    congr 1
    have hne : (EC.node l).Leader ≠ m := fun heq => hnotlm (heq ▸ hend)
    unfold united clearLeader EquivalenceClasses.setLeader setNext
    congr 1
    funext x
    generalize (EC.node l).Leader = e at hne
    simp only [update_apply]
    split_ifs <;> simp_all
  refine ⟨united EC l m, hunion, ⟨h.nodup, fun x hx => ?_, fun p q hp hq hlp hlq hgen => ?_,
    fun p hp hlp => ?_, hclosed⟩, rfl, by simpa [united, hlm'] using hll⟩
  · -- a path to the second leader goes on to the first one
    obtain ⟨k, p, hk, hgen⟩ := h.leads x hx
    have hleads : ∃ j, Leads (united EC l m) j x (if p = m then l else p) := by
      have hroot : Leads (united EC l m) 0 l l := .leader hl (by simpa [united, hlm'] using hll)
      clear hgen hx
      induction hk with
      | @leader p hp hlp =>
        by_cases hpm : p = m
        · subst hpm
          rw [if_pos rfl]
          exact ⟨1, .step hp (by simp [united]) (by simpa [united] using hroot)⟩
        · rw [if_neg hpm]
          exact ⟨0, .leader hp (by simpa [united, hpm] using hlp)⟩
      | @step x p n hx hlx hnext ih =>
        obtain ⟨j, hj⟩ := ih
        have hxm : x ≠ m := by rintro rfl; rw [hlx] at hlm; cases hlm
        have hxl : x ≠ l := by rintro rfl; rw [hlx] at hll; cases hll
        exact ⟨j + 1, .step hx (by simpa [united, hxm] using hlx)
          (by simpa [united, hxm, hxl] using hj)⟩
    obtain ⟨j, hj⟩ := hleads
    refine ⟨j, _, hj, ?_⟩
    rw [hjoined]
    split_ifs with hpm
    · exact .inr (.inr ⟨hpm ▸ hgen, .refl _ _⟩)
    · exact .inl hgen
  · have hne : ∀ {p}, ((united EC l m).node p).isLeader = true →
        p ≠ m ∧ (EC.node p).isLeader = true := by
      intro p hlp
      by_cases hpm : p = m
      · simp [united, hpm] at hlp
      · exact ⟨hpm, by simpa [united, hpm] using hlp⟩
    obtain ⟨hpm, hlp⟩ := hne hlp
    obtain ⟨hqm, hlq⟩ := hne hlq
    rcases (hjoined p q).mp hgen with hgen | ⟨-, hgen⟩ | ⟨hgen, -⟩
    · exact h.unique p q hp hq hlp hlq hgen
    · exact absurd (h.unique m q hm hq hlm hlq hgen).symm hqm
    · exact absurd (h.unique p m hp hm hlp hlm hgen) hpm
  · have hpm : p ≠ m := by
      rintro rfl
      simp [united] at hlp
    have hlp : (EC.node p).isLeader = true := by simpa [united, hpm] using hlp
    have hnext : ∀ x, x ≠ (EC.node l).Leader → ((united EC l m).node x).Next = (EC.node x).Next :=
      fun x hx => by simp [united, hx]
    by_cases hpl : p = l
    · subst hpl
      have hchainm' : Chain (united EC p m) (some m) Lm := hchainm.congr fun x hx => by
        refine hnext x ?_
        rintro rfl
        exact hnotlm (hend.trans ((hmemm _).mp hx).2.symm)
      refine ⟨Ll ++ Lm, hchainl.append hnodupl hlastl (by simp [united])
        (fun z _ hz => hnext z hz) hchainm', ?_, fun x => ?_, ?_⟩
      · refine List.nodup_append.mpr ⟨hnodupl, hnodupm, fun x hx y hy hxy => ?_⟩
        subst hxy
        exact hnotlm (((hmeml _).mp hx).2.trans ((hmemm _).mp hy).2.symm)
      · rw [mem_append, hmeml, hmemm, hjoined, ← and_or_left]
        refine and_congr_right fun _ => ⟨?_, ?_⟩
        · rintro (hx | hx)
          · exact .inl hx
          · exact .inr (.inl ⟨.refl _ _, hx⟩)
        · rintro (hx | ⟨-, hx⟩ | ⟨-, hx⟩)
          · exact .inl hx
          · exact .inr hx
          · exact .inl hx
      · rw [getLast?_append, hlastm]
        simp [united, hpm]
    · obtain ⟨L, hchain, hnodup, hmem, hlast⟩ := h.chain p hp hlp
      have hnotpl : ¬ Generated joins p l := fun hgen => hpl (h.unique p l hp hl hlp hll hgen)
      have hnotpm : ¬ Generated joins p m := fun hgen => hpm (h.unique p m hp hm hlp hlm hgen)
      refine ⟨L, hchain.congr fun x hx => hnext x ?_, hnodup, fun x => ?_, ?_⟩
      · rintro rfl
        exact hnotpl (((hmem _).mp hx).2.trans hend.symm)
      · rw [hmem, hjoined]
        simp [hnotpl, hnotpm, united]
      · rw [hlast]
        simp [united, hpm, hpl]

theorem findLeader_total (v : α) : ∃ o EC', EC.findLeader v = some (o, EC') ∧
    Represents EC' joins ∧ Compressed EC EC' ∧ (o = none → v ∉ EC.values) ∧
    ∀ l, o = some l → l ∈ EC.values ∧ (EC.node l).isLeader = true ∧ Generated joins v l := by
  by_cases hv : v ∈ EC.values
  · obtain ⟨l, EC', hfind, hl, hll, hgen, hrep, hcompressed⟩ := h.findLeader hv
    refine ⟨some l, EC', hfind, hrep, hcompressed, fun hnone => (by cases hnone), fun m hm => ?_⟩
    obtain rfl := Option.some.inj hm
    exact ⟨hl, hll, hgen⟩
  · refine ⟨none, EC, ?_, h, .refl EC, fun _ => hv, fun l hl => by cases hl⟩
    rw [EquivalenceClasses.findLeader, if_neg hv]

theorem unionSets (v w : α) : ∃ EC', EC.unionSets v w = some EC' ∧
    Represents EC' (joins ++ [(v, w)]) ∧
    ∀ x, x ∈ EC'.values ↔ x = w ∨ x = v ∨ x ∈ EC.values := by
  obtain ⟨h₁, hvalues₁, -⟩ := h.insert v
  obtain ⟨h₂, hvalues₂, -⟩ := h₁.insert w
  obtain ⟨l, EC₁, hfind₁, hl, hll, hgenl, hrep₁, hcompressed₁⟩ :=
    h₂.findLeader ((hvalues₂ v).mpr (.inr ((hvalues₁ v).mpr (.inl rfl))))
  obtain ⟨m, EC₂, hfind₂, hm, hlm, hgenm, hrep₂, hcompressed₂⟩ :=
    hrep₁.findLeader (v := w) (by rw [hcompressed₁.values]; exact (hvalues₂ w).mpr (.inl rfl))
  have hvalues : EC₂.values = ((EC.insert v).insert w).values :=
    hcompressed₂.values.trans hcompressed₁.values
  obtain ⟨EC', hunion, hrep, hvalues', -⟩ := hrep₂.unionLeaders (l := l) (m := m)
    (hvalues ▸ hl) (hcompressed₂.values ▸ hm)
    ((hcompressed₂.isLeader l).trans ((hcompressed₁.isLeader l).trans hll))
    ((hcompressed₂.isLeader m).trans hlm) hgenl hgenm
  refine ⟨EC', ?_, hrep, fun x => by rw [hvalues', hvalues, hvalues₂, hvalues₁]⟩
  rw [EquivalenceClasses.unionSets, hfind₁, Option.bind_some]
  dsimp only
  rw [hfind₂, Option.bind_some]
  exact hunion

theorem isEquivalent (v w : α) : ∃ r EC', EC.isEquivalent v w = some (r, EC') ∧
    (r = true ↔ Generated joins v w) ∧ Represents EC' joins ∧ Compressed EC EC' := by
  rw [EquivalenceClasses.isEquivalent]
  by_cases hvw : v = w
  · rw [if_pos hvw]
    exact ⟨true, EC, rfl, iff_of_true rfl (hvw ▸ .refl _ _), h, .refl EC⟩
  obtain ⟨o, EC₁, hfind₁, hrep₁, hcompressed₁, hnone₁, hsome₁⟩ := h.findLeader_total v
  rw [if_neg hvw, hfind₁, Option.bind_some]
  cases o with
  | none =>
    refine ⟨false, EC₁, rfl, iff_of_false (by decide) fun hgen => ?_, hrep₁, hcompressed₁⟩
    exact hvw (h.eq_of_generated hgen (hnone₁ rfl))
  | some l =>
    obtain ⟨hl, hll, hgenl⟩ := hsome₁ l rfl
    obtain ⟨o', EC₂, hfind₂, hrep₂, hcompressed₂, hnone₂, hsome₂⟩ := hrep₁.findLeader_total w
    dsimp only
    rw [Option.isNone_some, if_neg (by decide), hfind₂, Option.map_some]
    refine ⟨_, EC₂, rfl, ?_, hrep₂, hcompressed₁.trans hcompressed₂⟩
    rw [decide_eq_true_eq]
    constructor
    · rintro rfl
      exact hgenl.trans (hsome₂ l rfl).2.2.symm
    · intro hgen
      cases o' with
      | none =>
        have hw := hnone₂ rfl
        rw [hcompressed₁.values] at hw
        exact absurd (h.eq_of_generated hgen.symm hw).symm hvw
      | some m =>
        obtain ⟨hm, hlm, hgenm⟩ := hsome₂ m rfl
        rw [hcompressed₁.values] at hm
        rw [hcompressed₁.isLeader] at hlm
        rw [h.unique l m hl hm hll hlm (hgenl.symm.trans (hgen.trans hgenm))]

end Represents

/-! ## Copies -/

variable {RHS : EquivalenceClasses α}

theorem represents_empty : Represents (empty : EquivalenceClasses α) [] :=
  ⟨nodup_nil, fun _ hv => absurd hv not_mem_nil,
    fun _ _ hl => absurd hl not_mem_nil, fun _ hl => absurd hl not_mem_nil,
    fun _ _ hvw => absurd hvw not_mem_nil⟩

/-- The classes of some leaders are copied. -/
structure Copied (RHS EC : EquivalenceClasses α) (joins copied : List (α × α)) (done : List α) :
    Prop where
  represents : Represents EC copied
  values : ∀ x, x ∈ EC.values ↔ x ∈ RHS.values ∧
    ∃ l ∈ done, (RHS.node l).isLeader = true ∧ Generated joins l x
  sound : ∀ x y, (x, y) ∈ copied → Generated joins x y
  complete : ∀ l ∈ done, (RHS.node l).isLeader = true → ∀ x ∈ RHS.values, Generated joins l x →
    Generated copied l x

variable [LinearOrder α]

theorem insert_isLeader (hv : v ∉ EC.values) : ((EC.insert v).node v).isLeader = true := by
  rw [EquivalenceClasses.insert, if_neg hv]
  simp

theorem copyMembers_spec {rest : List α} {o : Option α} {fuel : Nat} (hchain : Chain RHS o rest)
    (hfuel : rest.length < fuel) (h : Represents EC joins) (hl : l ∈ EC.values)
    (hll : (EC.node l).isLeader = true) (hnodup : rest.Nodup) (hnew : ∀ x ∈ rest, x ∉ EC.values) :
    ∃ EC', copyMembers RHS l fuel EC o = some EC' ∧
      Represents EC' (joins ++ rest.map fun x => (l, x)) ∧
      ∀ x, x ∈ EC'.values ↔ x ∈ rest ∨ x ∈ EC.values := by
  induction hchain generalizing EC joins fuel with
  | nil =>
    obtain ⟨fuel, rfl⟩ := Nat.exists_eq_succ_of_ne_zero (Nat.ne_of_gt hfuel)
    exact ⟨EC, rfl, by simpa using h, by simp⟩
  | @cons v rest hchain ih =>
    obtain ⟨fuel, rfl⟩ := Nat.exists_eq_succ_of_ne_zero (Nat.ne_of_gt (Nat.zero_lt_of_lt hfuel))
    obtain ⟨hvrest, hnodup⟩ := List.nodup_cons.mp hnodup
    have hv := hnew v mem_cons_self
    obtain ⟨h₁, hvalues₁, hnode₁⟩ := h.insert v
    obtain ⟨EC₂, hunion, h₂, hvalues₂, hll₂⟩ := h₁.unionLeaders (l := l) (m := v)
      ((hvalues₁ l).mpr (.inr hl)) ((hvalues₁ v).mpr (.inl rfl)) (by rwa [hnode₁ l hl])
      (insert_isLeader hv) (.refl _ _) (.refl _ _)
    have hvalues : ∀ x, x ∈ EC₂.values ↔ x = v ∨ x ∈ EC.values := fun x => by
      rw [hvalues₂, hvalues₁]
    obtain ⟨EC', hcopy, h', hvalues'⟩ := ih (Nat.lt_of_succ_lt_succ hfuel) h₂
      ((hvalues l).mpr (.inr hl)) hll₂ hnodup fun x hx hmem =>
        ((hvalues x).mp hmem).elim (fun heq => hvrest (heq ▸ hx))
          (hnew x (mem_cons_of_mem v hx))
    refine ⟨EC', ?_, by simpa using h', fun x => ?_⟩
    · rw [copyMembers, if_pos (insert_isLeader hv), hunion, Option.bind_some, hcopy]
    · rw [hvalues', hvalues, mem_cons]
      tauto

theorem Copied.step {copied : List (α × α)} {done : List α} (hR : Represents RHS joins)
    (h : Copied RHS EC joins copied done) (hv : v ∈ RHS.values) (hnew : v ∉ done)
    (hdone : ∀ x ∈ done, x ∈ RHS.values) :
    ∃ EC' copied', copyClass RHS EC v = some EC' ∧ Copied RHS EC' joins copied' (v :: done) := by
  rw [copyClass]
  by_cases hlv : (RHS.node v).isLeader = true
  · rw [if_pos hlv]
    have hvEC : v ∉ EC.values := by
      intro hmem
      obtain ⟨-, l, hl, hll, hgen⟩ := (h.values v).mp hmem
      exact hnew (hR.unique l v (hdone l hl) hv hll hlv hgen ▸ hl)
    obtain ⟨L, hchain, hnodup, hmem, -⟩ := hR.chain v hv hlv
    obtain ⟨h₁, hvalues₁, -⟩ := h.represents.insert v
    cases hchain with
    | @cons _ rest hchain =>
      obtain ⟨hvrest, hnodup⟩ := List.nodup_cons.mp hnodup
      have hrest : ∀ x ∈ rest, x ∈ RHS.values ∧ Generated joins v x := fun x hx =>
        (hmem x).mp (mem_cons_of_mem v hx)
      have hlength : rest.length < RHS.values.length + 1 :=
        Nat.lt_succ_of_le (hnodup.subperm fun x hx => (hrest x hx).1).length_le
      obtain ⟨EC', hcopy, h', hvalues'⟩ := copyMembers_spec hchain hlength h₁
        ((hvalues₁ v).mpr (.inl rfl)) (insert_isLeader hvEC) hnodup fun x hx hxEC => by
          rcases (hvalues₁ x).mp hxEC with rfl | hxEC
          · exact hvrest hx
          · obtain ⟨-, l, hl, hll, hgen⟩ := (h.values x).mp hxEC
            have heq := hR.unique l v (hdone l hl) hv hll hlv (hgen.trans (hrest x hx).2.symm)
            exact hnew (heq ▸ hl)
      refine ⟨EC', copied ++ rest.map fun x => (v, x),
        by rw [if_pos (insert_isLeader hvEC), hcopy], h', fun x => ?_, fun x y hxy => ?_,
        fun l hl hll x hx hgen => ?_⟩
      · have hcons := hmem x
        rw [mem_cons] at hcons
        rw [hvalues', hvalues₁, h.values, ← or_assoc, or_comm (a := x ∈ rest), hcons, ← and_or_left]
        simp only [mem_cons, or_and_right, exists_or, exists_eq_left, hlv, true_and]
      · rcases List.mem_append.mp hxy with hxy | hxy
        · exact h.sound x y hxy
        · obtain ⟨z, hz, heq⟩ := List.mem_map.mp hxy
          obtain ⟨rfl, rfl⟩ := Prod.mk.inj heq
          exact (hrest z hz).2
      · rcases List.mem_cons.mp hl with rfl | hl
        · rcases List.mem_cons.mp ((hmem x).mpr ⟨hx, hgen⟩) with rfl | hx
          · exact .refl _ _
          · exact .of_mem (mem_append_right _ (mem_map_of_mem hx))
        · exact (h.complete l hl hll x hx hgen).le fun a b hab =>
            .of_mem (mem_append_left _ hab)
  · rw [if_neg hlv]
    refine ⟨EC, copied, rfl, h.represents, fun x => ?_, h.sound, fun l hl hll => ?_⟩
    · rw [h.values]
      simp only [mem_cons, or_and_right, exists_or, exists_eq_left, hlv,
        Bool.false_eq_true, false_and, false_or]
    · rcases List.mem_cons.mp hl with rfl | hl
      · exact absurd hll hlv
      · exact h.complete l hl hll

theorem copyLoop_spec {vs done : List α} {copied : List (α × α)} (hR : Represents RHS joins)
    (h : Copied RHS EC joins copied done) (hnodup : (vs.reverse ++ done).Nodup)
    (hmem : ∀ x ∈ vs.reverse ++ done, x ∈ RHS.values) :
    ∃ EC' copied', vs.foldlM (copyClass RHS) EC = some EC' ∧
      Copied RHS EC' joins copied' (vs.reverse ++ done) := by
  induction vs generalizing EC copied done with
  | nil => exact ⟨EC, copied, rfl, h⟩
  | cons v vs ih =>
    rw [reverse_cons, append_assoc, singleton_append] at hnodup hmem ⊢
    have hsuffix := (List.nodup_append.mp hnodup).2.1
    obtain ⟨EC₁, copied₁, hclass, h₁⟩ := h.step hR
      (hmem v (mem_append_right _ mem_cons_self)) (List.nodup_cons.mp hsuffix).1
      fun x hx => hmem x (mem_append_right _ (mem_cons_of_mem v hx))
    obtain ⟨EC', copied', hfold, h'⟩ := ih h₁ hnodup hmem
    refine ⟨EC', copied', ?_, h'⟩
    rw [foldlM_cons, hclass]
    exact hfold

theorem copyFrom_spec (hR : Represents RHS joins) :
    ∃ EC, copyFrom RHS = some EC ∧ Represents EC joins ∧ ∀ x, x ∈ EC.values ↔ x ∈ RHS.values := by
  have hstart : Copied RHS empty joins [] [] :=
    ⟨represents_empty, fun x => by simp [empty], by simp, by simp⟩
  obtain ⟨EC, copied, hfold, h⟩ := copyLoop_spec hR hstart
    (show (RHS.values.reverse ++ []).Nodup by simpa using hR.nodup) (by simp)
  rw [append_nil] at h
  -- every value is in the class of a leader, which is copied
  have hleader : ∀ x ∈ RHS.values, ∃ l ∈ RHS.values, (RHS.node l).isLeader = true ∧
      Generated joins l x := by
    intro x hx
    obtain ⟨k, l, hk, hgen⟩ := hR.leads x hx
    exact ⟨l, hk.isLeader.1, hk.isLeader.2, hgen.symm⟩
  have hvalues : ∀ x, x ∈ EC.values ↔ x ∈ RHS.values := fun x => by
    rw [h.values]
    simp only [mem_reverse]
    exact and_iff_left_of_imp (hleader x)
  refine ⟨EC, hfold, h.represents.congr (fun x y => ⟨Generated.le h.sound, fun hxy => ?_⟩) ?_,
    hvalues⟩
  · by_cases hx : x ∈ RHS.values
    · obtain ⟨l, hl, hll, hgen⟩ := hleader x hx
      have hy := hR.mem_of_generated hxy.symm hx
      have hcomplete := h.complete l (List.mem_reverse.mpr hl) hll
      exact (hcomplete x hx hgen).symm.trans (hcomplete y hy (hgen.trans hxy))
    · exact hR.eq_of_generated hxy hx ▸ .refl _ _
  · intro x y hxy
    rw [hvalues, hvalues]
    exact hR.closed x y hxy

/-! ## Runs -/

/-- The calls of clients on some objects. -/
inductive Call (α : Type*)
  | insert (i : Nat) (v : α)
  | unionSets (i : Nat) (v w : α)
  | findLeader (i : Nat) (v : α)
  | isEquivalent (i : Nat) (v w : α)
  | assign (i j : Nat)

/-- The objects after a call. The copy assignment clears its object first. -/
def Call.apply (objs : Nat → EquivalenceClasses α) :
    Call α → Option (Nat → EquivalenceClasses α)
  | .insert i v => some (update objs i ((objs i).insert v))
  | .unionSets i v w => ((objs i).unionSets v w).map (update objs i)
  | .findLeader i v => ((objs i).findLeader v).map fun r => update objs i r.2
  | .isEquivalent i v w => ((objs i).isEquivalent v w).map fun r => update objs i r.2
  | .assign i j =>
    (copyFrom (update objs i empty j)).map
      (update (update objs i empty) i)

def run (objs : Nat → EquivalenceClasses α) (calls : List (Call α)) :
    Option (Nat → EquivalenceClasses α) := calls.foldlM Call.apply objs

def Call.record (H : Nat → History α) : Call α → Nat → History α
  | .insert i v => update H i { H i with inserted := v :: (H i).inserted }
  | .unionSets i v w =>
    update H i ⟨w :: v :: (H i).inserted, (H i).unions ++ [(v, w)]⟩
  | .findLeader _ _ => H
  | .isEquivalent _ _ _ => H
  | .assign i j => update H i (H j)

def history (calls : List (Call α)) : Nat → History α :=
  calls.foldl Call.record fun _ => ⟨[], []⟩

/-- No object with values is assigned to itself. -/
def NoSelfAssignment (H : Nat → History α) : List (Call α) → Prop
  | [] => True
  | c :: calls =>
    (∀ i, c = .assign i i → (H i).inserted = []) ∧ NoSelfAssignment (c.record H) calls

/-- An object keeps the generated equivalence. -/
structure Faithful (EC : EquivalenceClasses α) (H : History α) : Prop where
  values : ∀ x, x ∈ EC.values ↔ x ∈ H.inserted
  isEquivalent : ∀ v ∈ H.inserted, ∀ w ∈ H.inserted, ∃ r EC',
    EC.isEquivalent v w = some (r, EC') ∧ (r = true ↔ Generated H.unions v w)
  chain : ∀ l ∈ H.inserted, (EC.node l).isLeader = true → ∃ L, Chain EC (some l) L ∧ L.Nodup ∧
    ∀ x, x ∈ L ↔ x ∈ H.inserted ∧ Generated H.unions l x
  leader : ∀ v ∈ H.inserted, ∃ l ∈ H.inserted, (EC.node l).isLeader = true ∧
    Generated H.unions v l ∧ ∀ m ∈ H.inserted, (EC.node m).isLeader = true →
      Generated H.unions v m → m = l
  findLeader : ∀ v ∈ H.inserted, ∃ l EC', EC.findLeader v = some (some l, EC') ∧
    (EC.node l).isLeader = true ∧ Generated H.unions v l ∧ EC'.values = EC.values ∧
    ∀ x, (EC'.node x).isLeader = (EC.node x).isLeader ∧ (EC'.node x).Next = (EC.node x).Next

theorem Tracks.faithful {H : History α} (h : Tracks EC H) : Faithful EC H := by
  obtain ⟨hrep, hvalues⟩ := h
  refine ⟨hvalues, fun v _ w _ => ?_, fun l hl hll => ?_, fun v hv => ?_, fun v hv => ?_⟩
  · obtain ⟨r, EC', heq, hr, -⟩ := hrep.isEquivalent v w
    exact ⟨r, EC', heq, hr⟩
  · obtain ⟨L, hchain, hnodup, hmem, -⟩ := hrep.chain l ((hvalues l).mpr hl) hll
    exact ⟨L, hchain, hnodup, fun x => by rw [hmem, hvalues]⟩
  · obtain ⟨k, l, hk, hgen⟩ := hrep.leads v ((hvalues v).mpr hv)
    refine ⟨l, (hvalues l).mp hk.isLeader.1, hk.isLeader.2, hgen, fun m hm hlm hgen' => ?_⟩
    exact hrep.unique m l ((hvalues m).mpr hm) hk.isLeader.1 hlm hk.isLeader.2
      (hgen'.symm.trans hgen)
  · obtain ⟨l, EC', hfind, -, hll, hgen, -, hcompressed⟩ := hrep.findLeader ((hvalues v).mpr hv)
    exact ⟨l, EC', hfind, hll, hgen, hcompressed.values,
      fun x => ⟨hcompressed.isLeader x, hcompressed.next x⟩⟩

theorem Tracks.apply {objs : Nat → EquivalenceClasses α} {H : Nat → History α} {c : Call α}
    (h : ∀ i, Tracks (objs i) (H i)) (hc : ∀ i, c = .assign i i → (H i).inserted = []) :
    ∃ objs', c.apply objs = some objs' ∧ ∀ i, Tracks (objs' i) (c.record H i) := by
  cases c with
  | insert i v =>
    obtain ⟨hrep, hvalues, -⟩ := (h i).represents.insert v
    refine ⟨_, rfl, tracks_update h ⟨hrep, fun x => ?_⟩⟩
    rw [hvalues, (h i).values, mem_cons]
  | unionSets i v w =>
    obtain ⟨EC', hunion, hrep, hvalues⟩ := (h i).represents.unionSets v w
    refine ⟨_, by rw [Call.apply, hunion, Option.map_some], tracks_update h ⟨hrep, fun x => ?_⟩⟩
    rw [hvalues, (h i).values, mem_cons, mem_cons]
  | findLeader i v =>
    obtain ⟨o, EC', hfind, hrep, hcompressed, -⟩ := (h i).represents.findLeader_total v
    refine ⟨_, by rw [Call.apply, hfind, Option.map_some], ?_⟩
    have htracks := tracks_update (i := i) h ⟨hrep, fun x => by
      rw [hcompressed.values, (h i).values]⟩
    rwa [update_eq_self] at htracks
  | isEquivalent i v w =>
    obtain ⟨r, EC', heq, -, hrep, hcompressed⟩ := (h i).represents.isEquivalent v w
    refine ⟨_, by rw [Call.apply, heq, Option.map_some], ?_⟩
    have htracks := tracks_update (i := i) h ⟨hrep, fun x => by
      rw [hcompressed.values, (h i).values]⟩
    rwa [update_eq_self] at htracks
  | assign i j =>
    have hj : Tracks (update objs i empty j) (H j) := by
      by_cases hij : j = i
      · subst hij
        have hnone := hc j rfl
        have hunions : (H j).unions = [] := by
          refine List.eq_nil_iff_forall_not_mem.mpr fun ⟨v, w⟩ hvw => ?_
          have hv := ((h j).values v).mp ((h j).represents.closed v w hvw).1
          rw [hnone] at hv
          exact not_mem_nil hv
        rw [update_self]
        exact ⟨hunions ▸ represents_empty, fun x => by rw [hnone]; rfl⟩
      · rw [update_of_ne hij]
        exact h j
    obtain ⟨EC', hcopy, hrep, hvalues⟩ := copyFrom_spec hj.represents
    refine ⟨_, by rw [Call.apply, hcopy, Option.map_some], fun k => ?_⟩
    rw [update_idem]
    exact tracks_update h ⟨hrep, fun x => by rw [hvalues, hj.values]⟩ k

/-- In every run without a self-assignment of an object with values, each object keeps the
equivalence that its unions generate. -/
theorem run_faithful {calls : List (Call α)}
    (h : NoSelfAssignment (fun _ => ⟨[], []⟩) calls) :
    ∃ objs, run (fun _ => empty) calls = some objs ∧ ∀ i, Faithful (objs i) (history calls i) := by
  have hrun : ∀ (objs : Nat → EquivalenceClasses α) (H : Nat → History α),
      (∀ i, Tracks (objs i) (H i)) → NoSelfAssignment H calls →
      ∃ objs', run objs calls = some objs' ∧
        ∀ i, Tracks (objs' i) (calls.foldl Call.record H i) := by
    clear h
    induction calls with
    | nil => exact fun objs H h _ => ⟨objs, rfl, h⟩
    | cons c calls ih =>
      intro objs H h hself
      obtain ⟨objs₁, happly, h₁⟩ := Tracks.apply h hself.1
      obtain ⟨objs', hrun, h'⟩ := ih objs₁ _ h₁ hself.2
      exact ⟨objs', by rw [run, foldlM_cons, happly]; exact hrun, h'⟩
  obtain ⟨objs, hobjs, htracks⟩ :=
    hrun (fun _ => empty) (fun _ => ⟨[], []⟩) (fun _ => ⟨represents_empty, fun _ => Iff.rfl⟩) h
  exact ⟨objs, hobjs, fun i => (htracks i).faithful⟩

/-- Two values are united, and the object is copied. -/
theorem run_faithful_copy :
    ∃ objs, run (fun _ => empty) [.unionSets 0 1 2, .assign 1 0] = some objs ∧
      ∀ i, Faithful (objs i) (history [.unionSets 0 1 2, .assign 1 0] i) :=
  run_faithful (α := Nat) ⟨by simp, by simp, trivial⟩

/-- A self-assignment loses the values. -/
theorem run_not_faithful :
    ¬ ∀ (calls : List (Call Nat)) objs, run (fun _ => empty) calls = some objs →
      ∀ i, Faithful (objs i) (history calls i) := by
  intro h
  have hfaithful := h [.insert 0 1, .assign 0 0] _ rfl 0
  have hmem := (hfaithful.values 1).mpr mem_cons_self
  exact absurd hmem (by decide)

end EquivalenceClasses

end Zapcc
