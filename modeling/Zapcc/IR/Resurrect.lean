import Zapcc.IR.Module
import Zapcc.Library.Traversal
import Mathlib.Data.Fin.VecNotation

/-!
# Aliveness of the global values of a cached module

Code is generated for the global values that are alive. From the ones that the declarations of a
compilation made alive, `resurrectGlobals` follows the references, and `resurrect` then marks the
type infos of the functions that are alive. `Needed` and `MarkedLate` say without any state which
ones these are. `resurrect_closed_iff` says exactly when no definition that is alive refers to a
global value that is not: the marks of the last loop are not followed any more.
-/

namespace Zapcc.IR

open Traversal List Finset

/-- Whether code is generated for a global value. -/
inductive AliveTypes where
  | dead
  | declaration
  | definition
  deriving DecidableEq

variable {Constant : Type*} [DecidableEq Constant]

/-- The state of following references: what is alive, and what has been seen. -/
structure ResurrectGlobals (Constant : Type*) where
  alive : Constant → AliveTypes
  seenGlobals : Finset Constant
  seenConstants : Finset Constant

namespace ResurrectGlobals

variable (s : ResurrectGlobals Constant)

def setAliveDefinition (G : Constant) : ResurrectGlobals Constant :=
  { s with alive := Function.update s.alive G .definition }

def insertGlobal (G : Constant) : ResurrectGlobals Constant :=
  { s with seenGlobals := insert G s.seenGlobals }

def insertConstant (C : Constant) : ResurrectGlobals Constant :=
  { s with seenConstants := insert C s.seenConstants }

end ResurrectGlobals

namespace Module

variable (m : Module Constant)

/-- Deal with all constants that the definition of a global value uses: the initializer, the
indirect symbol, or the operands and the body of a function. -/
def followDefinition
    (needed used : ResurrectGlobals Constant → Constant → Option (ResurrectGlobals Constant))
    (s : ResurrectGlobals Constant) (G : Constant) : Option (ResurrectGlobals Constant) :=
  match m.kind G with
  | .function => do
      let s ← (m.operands G).foldlM used s
      (m.body G).foldlM (fun s I => I.operands.foldlM (fun s U =>
        if m.isGlobalValue U then needed s U else used s U) s) s
  | _ => (m.operands G).foldlM used s

mutual

/-- Make a global value alive, and everything that its definition refers to. There is no result
when the fuel runs out. -/
def globalIsNeeded :
    Nat → ResurrectGlobals Constant → Constant → Option (ResurrectGlobals Constant)
  | 0, _, _ => none
  | fuel + 1, s, G =>
    if G ∈ s.seenGlobals then some s
    else if s.alive G = .declaration then some (s.insertGlobal G)
    else
      m.followDefinition (globalIsNeeded fuel) (markUsedGlobalsAsNeeded fuel)
        ((s.insertGlobal G).setAliveDefinition G) G

/-- Make the global values alive that a constant refers to. -/
def markUsedGlobalsAsNeeded :
    Nat → ResurrectGlobals Constant → Constant → Option (ResurrectGlobals Constant)
  | 0, _, _ => none
  | fuel + 1, s, C =>
    if m.isGlobalValue C then globalIsNeeded fuel s C
    else
      (m.operands C).foldlM (fun s Op =>
        if Op ∈ s.seenConstants then some s
        else markUsedGlobalsAsNeeded fuel (s.insertConstant Op) Op) s

end

/-- More than the depth of any traversal. -/
def fuel : Nat := 4 * m.constants.length + 2

/-- Visit the elements of a list that are alive when the iterator reaches them. -/
def forAlive (xs : List Constant) (s : ResurrectGlobals Constant) :
    Option (ResurrectGlobals Constant) :=
  xs.foldlM (fun s G =>
    if s.alive G = .dead then some s else m.globalIsNeeded m.fuel s G) s

/-- Follow the references from everything that is alive. -/
def resurrectGlobals (alive : Constant → AliveTypes) : Option (ResurrectGlobals Constant) := do
  let s ← m.forAlive m.functions ⟨alive, ∅, ∅⟩
  let s ← m.forAlive m.globals s
  let s ← m.forAlive m.aliases s
  m.forAlive m.ifuncs s

/-- What is left of a tracked value without a constant expression around it. -/
def withoutExpr (V : Constant) : Option Constant :=
  match m.kind V with
  | .constantExpr => (m.operands V).head?
  | _ => some V

/-- The global value that a tracked value stands for: a null pointer for none. There is no result
when the cast fails. -/
def fromValue : Option Constant → Option (Option Constant)
  | none => some none
  | some V => (m.withoutExpr V).bind fun V => if m.isGlobalValue V then some (some V) else none

def markTypeInfo (alive : Constant → AliveTypes) (V : Option Constant) :
    Option (Constant → AliveTypes) := do
  match ← m.fromValue V with
  | none => some alive
  | some GV =>
    if alive GV = .declaration then some alive
    else some (Function.update alive GV .definition)

def markTypeInfos (functionTypeInfos : Constant → List (Option Constant)) (fs : List Constant)
    (alive : Constant → AliveTypes) : Option (Constant → AliveTypes) :=
  fs.foldlM (fun alive F =>
    if alive F = .dead then some alive
    else if alive F = .declaration then some alive
    else (functionTypeInfos F).foldlM m.markTypeInfo alive) alive

/-- The part of `resurrect` after the declarations have made their global values alive. -/
def resurrect (functionTypeInfos : Constant → List (Option Constant))
    (alive : Constant → AliveTypes) : Option (Constant → AliveTypes) := do
  let s ← m.resurrectGlobals alive
  m.markTypeInfos functionTypeInfos m.functions s.alive

/-- The global values that the initially alive ones need: they are alive, or referenced from a
definition that is needed. -/
inductive Needed (alive : Constant → AliveTypes) : Constant → Prop where
  | alive {G : Constant} : m.isGlobalValue G = true → alive G ≠ .dead → Needed alive G
  | reference {G N : Constant} :
      Needed alive G → alive G ≠ .declaration → m.References G N → Needed alive N

/-- The last loop marks a type info of a function that is alive as a definition: one that is
needed, or that was marked for an earlier function. The list has the functions in reverse. -/
def MarkedLate (functionTypeInfos : Constant → List (Option Constant))
    (alive : Constant → AliveTypes) : List Constant → Constant → Prop
  | [], _ => False
  | F :: earlier, GV =>
    MarkedLate functionTypeInfos alive earlier GV ∨
      (m.Needed alive F ∨ MarkedLate functionTypeInfos alive earlier F) ∧
        alive F ≠ .declaration ∧ alive GV ≠ .declaration ∧
        ∃ V ∈ functionTypeInfos F, m.fromValue V = some (some GV)

/-- No definition that is alive refers to a global value that is dead. -/
def AliveClosed (alive : Constant → AliveTypes) : Prop :=
  ∀ G N, m.isGlobalValue G = true → alive G = .definition → m.References G N → alive N ≠ .dead

end Module

/-- The second state has more definitions that are alive: the marked ones that are not only
declared. -/
structure Raises (alive alive' : Constant → AliveTypes) (marked : Constant → Prop) : Prop where
  definition : ∀ G, alive' G = .definition ↔
    alive G = .definition ∨ marked G ∧ alive G ≠ .declaration
  declaration : ∀ G, alive' G = .declaration ↔ alive G = .declaration

namespace Raises

variable {alive alive' alive'' : Constant → AliveTypes} {marked marked' : Constant → Prop}

omit [DecidableEq Constant]

theorem refl (alive : Constant → AliveTypes) : Raises alive alive fun _ => False :=
  ⟨fun _ => ⟨Or.inl, fun h => h.elim id fun h => h.1.elim⟩, fun _ => Iff.rfl⟩

theorem trans (h : Raises alive alive' marked) (h' : Raises alive' alive'' marked') :
    Raises alive alive'' fun G => marked G ∨ marked' G := by
  refine ⟨fun G => ?_, fun G => (h'.declaration G).trans (h.declaration G)⟩
  rw [h'.definition, h.definition, ne_eq, ne_eq, h.declaration, or_and_right, or_assoc]

theorem congr (h : Raises alive alive' marked)
    (hmarked : ∀ G, alive G ≠ .declaration → (marked' G ↔ marked G)) :
    Raises alive alive' marked' := by
  refine ⟨fun G => ?_, h.declaration⟩
  rw [h.definition]
  exact or_congr_right (and_congr_left fun hne => (hmarked G hne).symm)

theorem ne_dead_iff (h : Raises alive alive' marked) (G : Constant) :
    alive' G ≠ .dead ↔ alive G ≠ .dead ∨ marked G := by
  have hdefinition := h.definition G
  have hdeclaration := h.declaration G
  cases hG : alive G with
  | dead =>
    rw [hG] at hdefinition hdeclaration
    cases hG' : alive' G with
    | dead => simpa [hG'] using hdefinition
    | declaration => simp [hG'] at hdeclaration
    | definition => simpa [hG'] using hdefinition
  | declaration => simp [hdeclaration.mpr hG]
  | definition => simp [hdefinition.mpr (Or.inl hG)]

end Raises

/-- What a traversal marks: global values, and constants that were met as operands. -/
inductive Item (Constant : Type*) where
  | globalValue (G : Constant)
  | operand (C : Constant)

namespace ResurrectGlobals

def seen (s : ResurrectGlobals Constant) : Set (Item Constant)
  | .globalValue G => G ∈ s.seenGlobals
  | .operand C => C ∈ s.seenConstants

/-- How much is left to see. -/
def left (m : Module Constant) (s : ResurrectGlobals Constant) : Nat :=
  unseen m.constants s.seenGlobals + unseen m.constants s.seenConstants

theorem seen_insertGlobal (s : ResurrectGlobals Constant) (G : Constant) :
    (s.insertGlobal G).seen = insert (.globalValue G) s.seen := by
  ext item
  rw [Set.mem_insert_iff]
  cases item with
  | globalValue G' =>
    rw [Item.globalValue.injEq]
    exact mem_insert
  | operand C =>
    constructor
    · exact Or.inr
    · rintro (h | h)
      · cases h
      · exact h

theorem seen_insertConstant (s : ResurrectGlobals Constant) (C : Constant) :
    (s.insertConstant C).seen = insert (.operand C) s.seen := by
  ext item
  rw [Set.mem_insert_iff]
  cases item with
  | globalValue G =>
    constructor
    · exact Or.inr
    · rintro (h | h)
      · cases h
      · exact h
  | operand C' =>
    rw [Item.operand.injEq]
    exact mem_insert

variable {G : Constant}

theorem left_insertGlobal_lt (m : Module Constant) (s : ResurrectGlobals Constant)
    (hG : G ∉ s.seenGlobals) : (s.insertGlobal G).left m < s.left m :=
  Nat.add_lt_add_right (unseen_insert_lt (m.mem_constants G) hG) _

theorem left_insertConstant_lt (m : Module Constant) (s : ResurrectGlobals Constant) {C : Constant}
    (hC : C ∉ s.seenConstants) : (s.insertConstant C).left m < s.left m :=
  Nat.add_lt_add_left (unseen_insert_lt (m.mem_constants C) hC) _

end ResurrectGlobals

namespace Module

variable (m : Module Constant)

/-- What has to be seen before a constant is dealt with. -/
def items (C : Constant) : Set (Item Constant) :=
  if m.isGlobalValue C then {.globalValue C} else {item | ∃ Op ∈ m.operands C, item = .operand Op}

/-- What has to be seen after an item: nothing for a global value that is only declared. -/
def successors (alive : Constant → AliveTypes) : Item Constant → Set (Item Constant)
  | .globalValue G => {item | alive G ≠ .declaration ∧ ∃ C ∈ m.uses G, item ∈ m.items C}
  | .operand C => m.items C

omit [DecidableEq Constant] in
theorem Refers.mem_of_closed {m : Module Constant} {alive : Constant → AliveTypes}
    {S : Set (Item Constant)} (hclosed : ∀ item ∈ S, m.successors alive item ⊆ S)
    {C N : Constant} (hrefers : m.Refers C N) (hitems : m.items C ⊆ S) :
    .globalValue N ∈ S := by
  induction hrefers with
  | self hglobal =>
    unfold items at hitems
    rw [if_pos hglobal] at hitems
    exact hitems rfl
  | @operand C Op N hglobal hOp _ ih =>
    unfold items at hitems
    rw [if_neg (by simp [hglobal])] at hitems
    exact ih (hclosed (.operand Op) (hitems ⟨Op, hOp, rfl⟩))

/-- A state on the way: what has been seen is needed, and it is alive. -/
structure Sound (alive : Constant → AliveTypes) (s : ResurrectGlobals Constant) : Prop where
  alive_eq : ∀ G, s.alive G =
    if G ∈ s.seenGlobals ∧ alive G ≠ .declaration then .definition else alive G
  globals : ∀ G ∈ s.seenGlobals, m.Needed alive G
  constants : ∀ C ∈ s.seenConstants, ∀ N, m.Refers C N → m.Needed alive N

/-- What a step of the traversal does: it stays sound, and sees everything that follows from what
it sees, and its targets. -/
structure Followed (alive : Constant → AliveTypes) (s s' : ResurrectGlobals Constant)
    (targets : Set (Item Constant)) : Prop where
  sound : m.Sound alive s'
  follows : Extends (m.successors alive) s.seen s'.seen
  seen : targets ⊆ s'.seen

variable {m} {alive : Constant → AliveTypes} {s s' s'' : ResurrectGlobals Constant}

theorem Sound.followed (hs : m.Sound alive s) {targets : Set (Item Constant)}
    (hseen : targets ⊆ s.seen) : m.Followed alive s s targets :=
  ⟨hs, .refl _ _, hseen⟩

theorem Followed.trans {targets targets' : Set (Item Constant)}
    (h : m.Followed alive s s' targets) (h' : m.Followed alive s' s'' targets') :
    m.Followed alive s s'' (targets ∪ targets') :=
  ⟨h'.sound, h.follows.trans h'.follows, Set.union_subset (h.seen.trans h'.follows.subset) h'.seen⟩

theorem left_mono (h : Extends (m.successors alive) s.seen s'.seen) : s'.left m ≤ s.left m := by
  refine Nat.add_le_add (unseen_mono _ fun G hG => ?_) (unseen_mono _ fun C hC => ?_)
  · exact h.subset (show Item.globalValue G ∈ s.seen from hG)
  · exact h.subset (show Item.operand C ∈ s.seen from hC)

theorem foldlM_followed {β : Type*} {n : Nat}
    {visit : ResurrectGlobals Constant → β → Option (ResurrectGlobals Constant)} {xs : List β}
    {targets : β → Set (Item Constant)}
    (hvisit : ∀ x ∈ xs, ∀ s, m.Sound alive s → s.left m ≤ n →
      ∃ s', visit s x = some s' ∧ m.Followed alive s s' (targets x))
    (hs : m.Sound alive s) (hleft : s.left m ≤ n) :
    ∃ s', xs.foldlM visit s = some s' ∧
      m.Followed alive s s' {item | ∃ x ∈ xs, item ∈ targets x} := by
  obtain ⟨s', hs', ⟨hsound, -⟩, hfollows, htargets⟩ :=
    foldlM_spec (P := fun s => m.Sound alive s ∧ s.left m ≤ n)
      (R := fun s s' => Extends (m.successors alive) s.seen s'.seen)
      (Q := fun x s => targets x ⊆ s.seen) (fun s => .refl _ _) (fun s s' s'' => .trans)
      (fun x s s' h hseen => hseen.trans h.subset)
      (fun x hx s hs => by
        obtain ⟨s', hs', hfollowed⟩ := hvisit x hx s hs.1 hs.2
        exact ⟨s', hs', ⟨hfollowed.sound, (left_mono hfollowed.follows).trans hs.2⟩,
          hfollowed.follows, hfollowed.seen⟩) ⟨hs, hleft⟩
  refine ⟨s', hs', hsound, hfollows, ?_⟩
  rintro item ⟨x, hx, hitem⟩
  exact htargets x hx hitem

theorem Sound.insertGlobal_declaration (hs : m.Sound alive s)
    (hneeded : m.Needed alive G) (hnot : G ∉ s.seenGlobals)
    (hdeclaration : s.alive G = .declaration) :
    m.Followed alive s (s.insertGlobal G) {.globalValue G} := by
  have hG : alive G = .declaration := by
    rw [hs.alive_eq, if_neg fun h => hnot h.1] at hdeclaration
    exact hdeclaration
  refine ⟨⟨fun G' => ?_, fun G' hG' => ?_, hs.constants⟩, ?_, ?_⟩
  · show s.alive G' = if G' ∈ insert G s.seenGlobals ∧ _ then _ else _
    rw [hs.alive_eq]
    by_cases hG' : G' = G
    · simp [hG', hG]
    · simp [hG']
  · rcases Finset.mem_insert.mp hG' with rfl | hG'
    · exact hneeded
    · exact hs.globals G' hG'
  · have hrefl := Extends.refl (m.successors alive) (s.insertGlobal G).seen
    rw [ResurrectGlobals.seen_insertGlobal] at hrefl ⊢
    exact hrefl.visit fun item hitem => absurd hG hitem.1
  · rw [ResurrectGlobals.seen_insertGlobal]
    exact Set.singleton_subset_iff.mpr (Set.mem_insert _ _)

theorem Sound.insertGlobal (hs : m.Sound alive s) (hneeded : m.Needed alive G)
    (hnot : G ∉ s.seenGlobals) (hdefinition : s.alive G ≠ .declaration) :
    m.Sound alive ((s.insertGlobal G).setAliveDefinition G) ∧ alive G ≠ .declaration := by
  have hG : alive G ≠ .declaration := by
    rw [hs.alive_eq, if_neg fun h => hnot h.1] at hdefinition
    exact hdefinition
  refine ⟨⟨fun G' => ?_, fun G' hG' => ?_, hs.constants⟩, hG⟩
  · show Function.update s.alive G .definition G' =
      if G' ∈ insert G s.seenGlobals ∧ _ then _ else _
    by_cases hG' : G' = G
    · rw [hG', Function.update_self]
      exact (if_pos ⟨mem_insert_self _ _, hG⟩).symm
    · rw [Function.update_of_ne hG', hs.alive_eq]
      simp [hG']
  · rcases Finset.mem_insert.mp hG' with rfl | hG'
    · exact hneeded
    · exact hs.globals G' hG'

theorem Sound.insertConstant (hs : m.Sound alive s) {C : Constant}
    (hneeded : ∀ N, m.Refers C N → m.Needed alive N) : m.Sound alive (s.insertConstant C) := by
  refine ⟨hs.alive_eq, hs.globals, fun C' hC' => ?_⟩
  rcases Finset.mem_insert.mp hC' with rfl | hC'
  · exact hneeded
  · exact hs.constants C' hC'

theorem Followed.of_insertGlobal
    (h : m.Followed alive ((s.insertGlobal G).setAliveDefinition G) s'
      {item | ∃ C ∈ m.uses G, item ∈ m.items C}) : m.Followed alive s s' {.globalValue G} := by
  have hseen : ((s.insertGlobal G).setAliveDefinition G).seen =
      insert (.globalValue G) s.seen := s.seen_insertGlobal G
  have hfollows := h.follows
  rw [hseen] at hfollows
  refine ⟨h.sound, hfollows.visit fun item hitem => h.seen hitem.2, ?_⟩
  exact Set.singleton_subset_iff.mpr (hfollows.subset (Set.mem_insert _ _))

theorem Followed.of_insertConstant {C : Constant}
    (h : m.Followed alive (s.insertConstant C) s' (m.items C)) :
    m.Followed alive s s' {.operand C} := by
  have hfollows := h.follows
  rw [s.seen_insertConstant] at hfollows
  refine ⟨h.sound, hfollows.visit h.seen, ?_⟩
  exact Set.singleton_subset_iff.mpr (hfollows.subset (Set.mem_insert _ _))

theorem followDefinition_followed {n : Nat}
    {needed used : ResurrectGlobals Constant → Constant → Option (ResurrectGlobals Constant)}
    (hneeded : ∀ s G, m.Sound alive s → m.isGlobalValue G = true → m.Needed alive G →
      s.left m ≤ n → ∃ s', needed s G = some s' ∧ m.Followed alive s s' {.globalValue G})
    (hused : ∀ s C, m.Sound alive s → (∀ N, m.Refers C N → m.Needed alive N) → s.left m ≤ n →
      ∃ s', used s C = some s' ∧ m.Followed alive s s' (m.items C))
    (huses : ∀ C ∈ m.uses G, ∀ N, m.Refers C N → m.Needed alive N) (hs : m.Sound alive s)
    (hleft : s.left m ≤ n) :
    ∃ s', m.followDefinition needed used s G = some s' ∧
      m.Followed alive s s' {item | ∃ C ∈ m.uses G, item ∈ m.items C} := by
  have hoperands : ∃ s', (m.operands G).foldlM used s = some s' ∧
      m.Followed alive s s' {item | ∃ C ∈ m.operands G, item ∈ m.items C} :=
    foldlM_followed (fun C hC s hs hleft =>
      hused s C hs (huses C (mem_append_left _ hC)) hleft) hs hleft
  have hall : m.instructions G = [] → ∃ s', (m.operands G).foldlM used s = some s' ∧
      m.Followed alive s s' {item | ∃ C ∈ m.uses G, item ∈ m.items C} := by
    intro hnil
    unfold uses
    rw [hnil, flatMap_nil, append_nil]
    exact hoperands
  unfold followDefinition
  cases hkind : m.kind G with
  | function =>
    have hinstructions : m.instructions G = m.body G := by
      unfold instructions
      rw [hkind]
    unfold uses at huses ⊢
    rw [hinstructions] at huses ⊢
    obtain ⟨middle, hmiddle, hfirst⟩ := hoperands
    have hoperand : ∀ I ∈ m.body G, ∀ U ∈ I.operands, ∀ s, m.Sound alive s → s.left m ≤ n →
        ∃ s', (if m.isGlobalValue U then needed s U else used s U) = some s' ∧
          m.Followed alive s s' (m.items U) := by
      intro I hI U hU s hs hleft
      have hU' := huses U (mem_append_right _ (List.mem_flatMap.mpr ⟨I, hI, hU⟩))
      by_cases hglobal : m.isGlobalValue U = true
      · rw [if_pos hglobal, show m.items U = {.globalValue U} from if_pos hglobal]
        exact hneeded s U hs hglobal (hU' U (.self hglobal)) hleft
      · rw [if_neg hglobal]
        exact hused s U hs hU' hleft
    have hinstruction : ∀ I ∈ m.body G, ∀ s, m.Sound alive s → s.left m ≤ n →
        ∃ s', I.operands.foldlM
          (fun s U => if m.isGlobalValue U then needed s U else used s U) s = some s' ∧
          m.Followed alive s s' {item | ∃ U ∈ I.operands, item ∈ m.items U} :=
      fun I hI s hs hleft => foldlM_followed (hoperand I hI) hs hleft
    obtain ⟨s', hs', hbody⟩ := foldlM_followed hinstruction hfirst.sound
      ((left_mono hfirst.follows).trans hleft)
    refine ⟨s', ?_, hbody.sound, (hfirst.trans hbody).follows, ?_⟩
    · simp only [hmiddle, Option.bind_eq_bind, Option.bind_some]
      exact hs'
    · rintro item ⟨C, hC, hitem⟩
      refine (hfirst.trans hbody).seen ?_
      rcases List.mem_append.mp hC with hC | hC
      · exact Or.inl ⟨C, hC, hitem⟩
      · obtain ⟨I, hI, hC⟩ := List.mem_flatMap.mp hC
        exact Or.inr ⟨I, hI, C, hC, hitem⟩
  | globalVariable | globalAlias | globalIFunc | blockAddress F | constantExpr | plain =>
    exact hall (by unfold instructions; rw [hkind])

theorem followed (fuel : Nat) :
    (∀ s G, m.Sound alive s → m.isGlobalValue G = true → m.Needed alive G →
      2 * s.left m + 1 ≤ fuel →
      ∃ s', m.globalIsNeeded fuel s G = some s' ∧ m.Followed alive s s' {.globalValue G}) ∧
    ∀ s C, m.Sound alive s → (∀ N, m.Refers C N → m.Needed alive N) → 2 * s.left m + 2 ≤ fuel →
      ∃ s', m.markUsedGlobalsAsNeeded fuel s C = some s' ∧ m.Followed alive s s' (m.items C) := by
  induction fuel with
  | zero =>
    refine ⟨fun s G _ _ _ hfuel => ?_, fun s C _ _ hfuel => ?_⟩
    · omega
    · omega
  | succ fuel ih =>
    obtain ⟨ihGlobal, ihConstant⟩ := ih
    refine ⟨fun s G hs hglobal hneeded hfuel => ?_, fun s C hs hneeded hfuel => ?_⟩
    · unfold globalIsNeeded
      by_cases hseen : G ∈ s.seenGlobals
      · rw [if_pos hseen]
        exact ⟨s, rfl, hs.followed (Set.singleton_subset_iff.mpr hseen)⟩
      rw [if_neg hseen]
      by_cases hdeclaration : s.alive G = .declaration
      · rw [if_pos hdeclaration]
        exact ⟨_, rfl, hs.insertGlobal_declaration hneeded hseen hdeclaration⟩
      rw [if_neg hdeclaration]
      obtain ⟨hsound, hdefinition⟩ := hs.insertGlobal hneeded hseen hdeclaration
      have hless : ((s.insertGlobal G).setAliveDefinition G).left m < s.left m :=
        s.left_insertGlobal_lt m hseen
      obtain ⟨s', hs', hfollowed⟩ := followDefinition_followed (G := G)
        (fun s' G' hs' hglobal' hneeded' hleft =>
          ihGlobal s' G' hs' hglobal' hneeded' (by omega))
        (fun s' C hs' hneeded' hleft => ihConstant s' C hs' hneeded' (by omega))
        (fun C hC N hN => .reference hneeded hdefinition ⟨C, hC, hN⟩) hsound Nat.le.refl
      exact ⟨s', hs', hfollowed.of_insertGlobal⟩
    · unfold markUsedGlobalsAsNeeded
      by_cases hglobal : m.isGlobalValue C = true
      · rw [if_pos hglobal, show m.items C = {.globalValue C} from if_pos hglobal]
        exact ihGlobal s C hs hglobal (hneeded C (.self hglobal)) (by omega)
      rw [if_neg hglobal]
      have hoperand : ∀ Op ∈ m.operands C, ∀ s', m.Sound alive s' → s'.left m ≤ s.left m →
          ∃ s'', (if Op ∈ s'.seenConstants then some s'
            else m.markUsedGlobalsAsNeeded fuel (s'.insertConstant Op) Op) = some s'' ∧
            m.Followed alive s' s'' {.operand Op} := by
        intro Op hOp s' hs' hleft
        by_cases hseen : Op ∈ s'.seenConstants
        · rw [if_pos hseen]
          exact ⟨s', rfl, hs'.followed (Set.singleton_subset_iff.mpr hseen)⟩
        rw [if_neg hseen]
        have hOp' : ∀ N, m.Refers Op N → m.Needed alive N :=
          fun N hN => hneeded N (.operand (by simpa using hglobal) hOp hN)
        have hless : (s'.insertConstant Op).left m < s'.left m :=
          s'.left_insertConstant_lt m hseen
        obtain ⟨s'', hs'', hfollowed⟩ :=
          ihConstant _ Op (hs'.insertConstant hOp') hOp' (by omega)
        exact ⟨s'', hs'', hfollowed.of_insertConstant⟩
      obtain ⟨s', hs', hfollowed⟩ := foldlM_followed hoperand hs Nat.le.refl
      refine ⟨s', hs', hfollowed.sound, hfollowed.follows, ?_⟩
      rw [show m.items C = {item | ∃ Op ∈ m.operands C, item = .operand Op} from if_neg hglobal]
      exact hfollowed.seen

theorem left_le_fuel (s : ResurrectGlobals Constant) : 2 * s.left m + 1 ≤ m.fuel := by
  have hglobals : unseen m.constants s.seenGlobals ≤ m.constants.length :=
    length_filter_le _ _
  have hconstants : unseen m.constants s.seenConstants ≤ m.constants.length :=
    length_filter_le _ _
  unfold ResurrectGlobals.left fuel
  omega

theorem Sound.needed (hs : m.Sound alive s) (hglobal : m.isGlobalValue G = true)
    (halive : s.alive G ≠ .dead) : m.Needed alive G := by
  by_cases hseen : G ∈ s.seenGlobals
  · exact hs.globals G hseen
  · rw [hs.alive_eq, if_neg fun h => hseen h.1] at halive
    exact .alive hglobal halive

theorem forAlive_followed {xs : List Constant} (hxs : ∀ G ∈ xs, m.isGlobalValue G = true)
    (hs : m.Sound alive s) :
    ∃ s', m.forAlive xs s = some s' ∧
      m.Followed alive s s' {item | ∃ G ∈ xs, alive G ≠ .dead ∧ item = .globalValue G} := by
  refine foldlM_followed (fun G hG s' hs' _ => ?_) hs Nat.le.refl
  by_cases hdead : s'.alive G = .dead
  · rw [if_pos hdead]
    refine ⟨s', rfl, hs'.followed ?_⟩
    rintro item ⟨halive, -⟩
    rw [hs'.alive_eq] at hdead
    split at hdead
    · cases hdead
    · exact absurd hdead halive
  · rw [if_neg hdead]
    obtain ⟨s'', hs'', hfollowed⟩ := (followed m.fuel).1 s' G hs' (hxs G hG)
      (hs'.needed (hxs G hG) hdead) (m.left_le_fuel s')
    refine ⟨s'', hs'', hfollowed.sound, hfollowed.follows, ?_⟩
    rintro item ⟨-, hitem⟩
    rw [hitem]
    exact hfollowed.seen rfl

theorem resurrectGlobals_raises (m : Module Constant) (alive : Constant → AliveTypes) :
    ∃ s, m.resurrectGlobals alive = some s ∧ Raises alive s.alive (m.Needed alive) := by
  have hglobal : ∀ kind : ValueKind Constant, kind.isGlobalValue = true →
      ∀ G ∈ m.ofKind kind, m.isGlobalValue G = true := by
    intro kind hkind G hG
    unfold isGlobalValue
    rw [m.mem_ofKind.mp hG]
    exact hkind
  have hstart : m.Sound alive ⟨alive, ∅, ∅⟩ :=
    ⟨fun G => by simp, fun G hG => absurd hG (notMem_empty G),
      fun C hC => absurd hC (notMem_empty C)⟩
  obtain ⟨s₁, hs₁, h₁⟩ := forAlive_followed (hglobal .function rfl) hstart
  obtain ⟨s₂, hs₂, h₂⟩ := forAlive_followed (hglobal .globalVariable rfl) h₁.sound
  obtain ⟨s₃, hs₃, h₃⟩ := forAlive_followed (hglobal .globalAlias rfl) h₂.sound
  obtain ⟨s, hs, h₄⟩ := forAlive_followed (hglobal .globalIFunc rfl) h₃.sound
  have hall := ((h₁.trans h₂).trans h₃).trans h₄
  refine ⟨s, ?_, fun G => ?_, fun G => ?_⟩
  · unfold resurrectGlobals functions globals aliases ifuncs
    simp only [hs₁, hs₂, hs₃, Option.bind_eq_bind, Option.bind_some]
    exact hs
  · have hinitial : ∀ G, m.isGlobalValue G = true → alive G ≠ .dead → G ∈ s.seenGlobals := by
      intro G hG halive
      refine show Item.globalValue G ∈ s.seen from hall.seen ?_
      have hmem : ∀ kind, m.kind G = kind → ∃ G' ∈ m.ofKind kind, alive G' ≠ .dead ∧
          Item.globalValue G = .globalValue G' :=
        fun kind hkind => ⟨G, m.mem_ofKind.mpr hkind, halive, rfl⟩
      unfold isGlobalValue at hG
      cases hkind : m.kind G with
      | function => exact Or.inl (Or.inl (Or.inl (hmem _ hkind)))
      | globalVariable => exact Or.inl (Or.inl (Or.inr (hmem _ hkind)))
      | globalAlias => exact Or.inl (Or.inr (hmem _ hkind))
      | globalIFunc => exact Or.inr (hmem _ hkind)
      | blockAddress F | constantExpr | plain => simp [hkind, ValueKind.isGlobalValue] at hG
    have hempty : (⟨alive, ∅, ∅⟩ : ResurrectGlobals Constant).seen = ∅ := by
      ext item
      cases item with
      | globalValue G => exact iff_of_false (notMem_empty G) (Set.notMem_empty _)
      | operand C => exact iff_of_false (notMem_empty C) (Set.notMem_empty _)
    have hclosed : ∀ item ∈ s.seen, m.successors alive item ⊆ s.seen := by
      have hfollows := hall.follows
      rw [hempty] at hfollows
      exact fun item hitem => hfollows.closed_of_empty hitem
    have hneeded : ∀ G, m.Needed alive G → G ∈ s.seenGlobals := by
      intro G hG
      induction hG with
      | alive hglobal halive => exact hinitial _ hglobal halive
      | @reference G N _ hdefinition hreferences ih =>
        obtain ⟨C, hC, hrefers⟩ := hreferences
        exact hrefers.mem_of_closed hclosed fun item hitem =>
          hclosed (.globalValue G) ih ⟨hdefinition, C, hC, hitem⟩
    rw [hall.sound.alive_eq]
    split
    · next h => exact iff_of_true rfl (Or.inr ⟨hall.sound.globals G h.1, h.2⟩)
    · next h =>
        exact ⟨Or.inl, fun hor => hor.resolve_right fun hG => h ⟨hneeded G hG.1, hG.2⟩⟩
  · rw [hall.sound.alive_eq]
    split
    · next h => exact iff_of_false AliveTypes.noConfusion h.2
    · exact Iff.rfl

/-- The type infos of every function, each one a null pointer or a value for which the cast to a
global value works. -/
structure FunctionTypeInfos (m : Module Constant) where
  infos : Constant → List (Option Constant)
  valid : ∀ F, ∀ V ∈ infos F, (m.fromValue V).isSome = true

omit [DecidableEq Constant] in
theorem isGlobalValue_of_fromValue {V : Option Constant} {GV : Constant}
    (h : m.fromValue V = some (some GV)) : m.isGlobalValue GV = true := by
  unfold fromValue at h
  split at h
  · cases h
  · obtain ⟨V', -, hV'⟩ := Option.bind_eq_some_iff.mp h
    split at hV'
    · next hglobal =>
        cases hV'
        exact hglobal
    · cases hV'

theorem markTypeInfo_raises {V : Option Constant} (hvalid : (m.fromValue V).isSome = true)
    (alive : Constant → AliveTypes) :
    ∃ alive', m.markTypeInfo alive V = some alive' ∧
      Raises alive alive' fun G => m.fromValue V = some (some G) := by
  obtain ⟨found, hfound⟩ := Option.isSome_iff_exists.mp hvalid
  unfold markTypeInfo
  rw [hfound, Option.bind_eq_bind, Option.bind_some]
  cases found with
  | none => exact ⟨alive, rfl, (Raises.refl alive).congr fun G _ => by simp⟩
  | some GV =>
    by_cases hGV : alive GV = .declaration
    · refine ⟨alive, if_pos hGV, (Raises.refl alive).congr fun G hG => iff_of_false ?_ id⟩
      intro heq
      cases heq
      exact hG hGV
    · refine ⟨Function.update alive GV .definition, if_neg hGV, fun G => ?_, fun G => ?_⟩
      · by_cases hG : G = GV
        · simp [hG, hGV]
        · simp [hG, Ne.symm hG]
      · by_cases hG : G = GV
        · simp [hG, hGV]
        · simp [hG]

theorem foldlM_markTypeInfo_raises {Vs : List (Option Constant)}
    (hvalid : ∀ V ∈ Vs, (m.fromValue V).isSome = true) (alive : Constant → AliveTypes) :
    ∃ alive', Vs.foldlM m.markTypeInfo alive = some alive' ∧
      Raises alive alive' fun G => ∃ V ∈ Vs, m.fromValue V = some (some G) := by
  induction Vs generalizing alive with
  | nil => exact ⟨alive, rfl, (Raises.refl alive).congr fun G _ => by simp⟩
  | cons V rest ih =>
    obtain ⟨middle, hmiddle, hfirst⟩ := markTypeInfo_raises (hvalid V mem_cons_self) alive
    obtain ⟨alive', halive', hrest⟩ :=
      ih (fun W hW => hvalid W (mem_cons_of_mem _ hW)) middle
    refine ⟨alive', ?_, (hfirst.trans hrest).congr fun G _ => by simp⟩
    rw [foldlM_cons, hmiddle]
    exact halive'

theorem markTypeInfos_raises (typeInfos : FunctionTypeInfos m)
    {alive alive' : Constant → AliveTypes} (hraises : Raises alive alive' (m.Needed alive))
    {fs : List Constant} (hfs : ∀ F ∈ fs, m.isGlobalValue F = true) :
    ∃ alive'', m.markTypeInfos typeInfos.infos fs alive' = some alive'' ∧
      Raises alive alive'' fun G => m.Needed alive G ∨
        m.MarkedLate typeInfos.infos alive fs.reverse G := by
  induction fs using List.reverseRecOn with
  | nil => exact ⟨alive', rfl, hraises.congr fun G _ => by simp [MarkedLate]⟩
  | append_singleton earlier F ih =>
    obtain ⟨middle, hmiddle, hearlier⟩ := ih fun G hG => hfs G (mem_append_left _ hG)
    have hF : m.isGlobalValue F = true := hfs F (by simp)
    -- the loop skips the functions that are dead or only declared
    have hcounts : (middle F ≠ .dead ∧ middle F ≠ .declaration) ↔
        (m.Needed alive F ∨ m.MarkedLate typeInfos.infos alive earlier.reverse F) ∧
          alive F ≠ .declaration := by
      rw [hearlier.ne_dead_iff, ne_eq (middle F), hearlier.declaration]
      exact and_congr_left fun _ => or_iff_right_of_imp fun halive => Or.inl (.alive hF halive)
    have hstep : m.markTypeInfos typeInfos.infos (earlier ++ [F]) alive' =
        if middle F = .dead then some middle
        else if middle F = .declaration then some middle
        else (typeInfos.infos F).foldlM m.markTypeInfo middle := by
      unfold markTypeInfos at hmiddle ⊢
      rw [foldlM_append, hmiddle]
      simp
    rw [hstep, reverse_append, reverse_singleton, singleton_append]
    by_cases hskip : middle F ≠ .dead ∧ middle F ≠ .declaration
    · obtain ⟨alive'', halive'', hF'⟩ :=
        foldlM_markTypeInfo_raises (typeInfos.valid F) middle
      obtain ⟨hneeded, hdefinition⟩ := hcounts.mp hskip
      rw [if_neg hskip.1, if_neg hskip.2]
      refine ⟨alive'', halive'', (hearlier.trans hF').congr fun G hG => ?_⟩
      simp only [MarkedLate, hneeded, hdefinition, hG, ne_eq, not_false_eq_true, true_and, or_assoc]
    · have hnot := mt hcounts.mpr hskip
      have hsame : (if middle F = .dead then some middle
          else if middle F = .declaration then some middle
          else (typeInfos.infos F).foldlM m.markTypeInfo middle) = some middle := by
        by_cases hdead : middle F = .dead
        · rw [if_pos hdead]
        · rw [if_neg hdead, if_pos (not_not.mp fun hne => hskip ⟨hdead, hne⟩)]
      refine ⟨middle, hsame, hearlier.congr fun G _ => or_congr_right ?_⟩
      exact or_iff_left fun h => hnot ⟨h.1, h.2.1⟩

/-- When `resurrect` returns, no definition that is alive refers to a dead global value if and only
if the type infos that the last loop marks refer to needed or marked global values only. -/
theorem resurrect_closed_iff (m : Module Constant) (typeInfos : FunctionTypeInfos m)
    (alive : Constant → AliveTypes) :
    ∃ alive', m.resurrect typeInfos.infos alive = some alive' ∧ (m.AliveClosed alive' ↔
        ∀ G N, m.MarkedLate typeInfos.infos alive m.functions.reverse G → m.References G N →
          m.Needed alive N ∨ m.MarkedLate typeInfos.infos alive m.functions.reverse N) := by
  obtain ⟨s, hs, hneeded⟩ := resurrectGlobals_raises m alive
  have hfunctions : ∀ F ∈ m.functions, m.isGlobalValue F = true := by
    intro F hF
    unfold isGlobalValue
    rw [m.mem_ofKind.mp hF]
    rfl
  obtain ⟨alive', halive', hraises⟩ := markTypeInfos_raises typeInfos hneeded hfunctions
  refine ⟨alive', ?_, ?_⟩
  · unfold resurrect
    rw [hs]
    exact halive'
  have hlate : ∀ {fs G}, m.MarkedLate typeInfos.infos alive fs G →
      m.isGlobalValue G = true ∧ alive G ≠ .declaration := by
    intro fs G hG
    induction fs with
    | nil => exact hG.elim
    | cons F earlier ih =>
      rcases hG with hG | ⟨-, -, hG, V, -, hV⟩
      · exact ih hG
      · exact ⟨isGlobalValue_of_fromValue hV, hG⟩
  constructor
  · intro hclosed G N hG hN
    have hdefinition := (hraises.definition G).mpr (Or.inr ⟨Or.inr hG, (hlate hG).2⟩)
    have hN' := hclosed G N (hlate hG).1 hdefinition hN
    rcases (hraises.ne_dead_iff N).mp hN' with halive | hmarked
    · obtain ⟨C, -, hrefers⟩ := hN
      exact Or.inl (.alive hrefers.isGlobalValue halive)
    · exact hmarked
  · intro hall G N hG hdefinition hN
    rw [hraises.ne_dead_iff]
    rcases (hraises.definition G).mp hdefinition with halive | ⟨hneeded | hmarked, hne⟩
    · have hneeded : m.Needed alive G := .alive hG (by rw [halive]; exact AliveTypes.noConfusion)
      exact Or.inr (Or.inl (.reference hneeded (by rw [halive]; exact AliveTypes.noConfusion) hN))
    · exact Or.inr (Or.inl (.reference hneeded hne hN))
    · exact Or.inr (hall G N hmarked hN)

end Module

/-- A function `0` with a type info `1` that was replaced by a definition, so that the entry has
become a cast `4`. The definition has a struct `3` with the name `2` as initializer. -/
def catchingModule : Module (Fin 5) where
  kind := ![.function, .globalVariable, .globalVariable, .plain, .constantExpr]
  operands := ![[], [3], [], [2], [1]]
  body _ := []
  constants := List.finRange 5
  mem_constants := mem_finRange

/-- The function has the cast as type info. -/
def catchingTypeInfos : catchingModule.FunctionTypeInfos where
  infos := ![[some 4], [], [], [], []]
  valid := by decide

/-- Only the function is alive, and its type info becomes alive without the name. -/
theorem catchingModule_not_closed :
    ¬ ∃ alive', catchingModule.resurrect catchingTypeInfos.infos
        ![.definition, .dead, .dead, .dead, .dead] = some alive' ∧
      catchingModule.AliveClosed alive' := by
  rintro ⟨alive', halive', hclosed⟩
  have hstates : (catchingModule.resurrect catchingTypeInfos.infos
      ![.definition, .dead, .dead, .dead, .dead]).map (fun alive => (alive 1, alive 2)) =
        some (.definition, .dead) := by
    decide
  rw [halive', Option.map_some, Option.some_inj, Prod.mk.injEq] at hstates
  have hreferences : catchingModule.References 1 2 :=
    ⟨3, by decide, .operand rfl (by decide : (2 : Fin 5) ∈ [2]) (.self rfl)⟩
  exact hclosed 1 2 rfl hstates.1 hreferences hstates.2

end Zapcc.IR
