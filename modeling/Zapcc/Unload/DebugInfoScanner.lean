import Zapcc.Library.Traversal

/-!
# The scan for users of debug info

The nodes of the debug info reference each other, also in cycles. A node is a user when it
references a user. `process` walks the references of a node and ends at the first user, so that it
misses users on cycles, and the scan is repeated until it finds no more. The main result is
`scan_exact`: after this, the roots that reference a seed are found.
-/

namespace Zapcc.Unload

open Traversal Relation Finset

/-- A node of the debug info, by its class, with the nodes that the scan follows. -/
inductive DINode (Node : Type*)
  | DIBasicType (scope : Option Node)
  | DIDerivedType (scope baseType : Option Node) (isPtrToMember : Bool) (classType : Option Node)
  | DICompositeType (scope baseType : Option Node) (elements : List (Option Node))
      (vTableHolder : Option Node) (templateParams : List (Option Node))
  | DISubroutineType (scope : Option Node) (typeArray : List (Option Node))
  | DISubprogram (scope type containingType : Option Node) (templateParams : List (Option Node))
      (declaration : Option Node) (retainedVariables : List (Option Node))
  | DILexicalBlockBase (scope : Option Node)
  | DINamespace (scope : Option Node)
  | DIModule (scope : Option Node)
  | DITemplateParameter (type : Option Node)
  | DIGlobalVariable (scope type staticDataMemberDeclaration : Option Node)
  | DILocalVariable (scope type : Option Node)
  | DIObjCProperty (type : Option Node)
  | DIImportedEntity (scope entity : Option Node)
  | other

/-- What a node references, in the order of the scan. -/
def DINode.references {Node : Type*} : DINode Node → List (Option Node)
  | DIBasicType scope => [scope]
  | DIDerivedType scope baseType isPtrToMember classType =>
    [scope, baseType] ++ if isPtrToMember then [classType] else []
  | DICompositeType scope baseType elements vTableHolder templateParams =>
    [scope, baseType] ++ elements ++ [vTableHolder] ++ templateParams
  | DISubroutineType scope typeArray => scope :: typeArray
  | DISubprogram scope type containingType templateParams declaration retainedVariables =>
    [scope, type, containingType] ++ templateParams ++ [declaration] ++ retainedVariables
  | DILexicalBlockBase scope | DINamespace scope | DIModule scope => [scope]
  | DITemplateParameter type => [type]
  | DIGlobalVariable scope type declaration => [scope, type, declaration]
  | DILocalVariable scope type => [scope, type, scope]
  | DIObjCProperty type => [type]
  | DIImportedEntity scope entity => [scope, entity]
  | other => []

structure DebugInfo (Node : Type*) where
  node : Node → DINode Node
  nodes : List Node
  mem_nodes : ∀ DIN, DIN ∈ nodes

structure DebugInfoScanner (Node : Type*) where
  Visited : Finset Node
  UserDINodes : Finset Node

variable {Node : Type*}

namespace DebugInfo

variable (g : DebugInfo Node)

/-- The nodes that a node references. -/
def operands (DIN : Node) : List Node := (g.node DIN).references.reduceOption

def ReferencesTo (Seeds : Set Node) (DIN : Node) : Prop :=
  ∃ seed ∈ Seeds, ReflTransGen (fun a b => b ∈ g.operands a) DIN seed

/-- The nodes that a node references, as the traversal follows them. -/
def next (DIN : Node) : Set Node := {operand | operand ∈ g.operands DIN}

variable {g}

variable {DIN : Node} {UserDINodes : Finset Node}

theorem ReferencesTo.mono {Seeds Seeds' : Set Node} (hsubset : Seeds ⊆ Seeds')
    (h : g.ReferencesTo Seeds DIN) : g.ReferencesTo Seeds' DIN := by
  obtain ⟨seed, hseed, hpath⟩ := h
  exact ⟨seed, hsubset hseed, hpath⟩

theorem not_referencesTo_of_closed {Seeds Visited : Set Node}
    (hclosed : ∀ x ∈ Visited, g.next x ⊆ Visited) (hdisjoint : ∀ x ∈ Visited, x ∉ Seeds)
    (hDIN : DIN ∈ Visited) : ¬ g.ReferencesTo Seeds DIN := by
  intro h
  obtain ⟨seed, hseed, hpath⟩ := h
  have hmem : seed ∈ Visited := by
    clear hseed
    induction hpath with
    | refl => exact hDIN
    | tail _ hstep ih => exact hclosed _ ih hstep
  exact hdisjoint seed hmem hseed

def UserOf (g : DebugInfo Node) (Users : Set Node) (DIN operand : Node) : Prop :=
  operand ∈ g.operands DIN ∧ operand ∈ Users

/-- There are more users, all on paths of users to the old ones, and the new ones are in `Reach`. -/
structure Finds (g : DebugInfo Node) (Reach : Set Node) (Users Users' : Finset Node) : Prop where
  subset : Users ⊆ Users'
  linked : ∀ x ∈ Users', ∃ user ∈ Users, ReflTransGen (g.UserOf ↑Users') x user
  within : ∀ x ∈ Users', x ∈ Users ∨ x ∈ Reach

/-- From `s` to `s'` nodes were visited and none of them is or references a user. -/
structure Passes (g : DebugInfo Node) (s s' : DebugInfoScanner Node) : Prop where
  same : s'.UserDINodes = s.UserDINodes
  extend : Extends g.next (↑s.Visited) (↑s'.Visited)
  notUser : ∀ x ∈ s'.Visited, x ∉ s.Visited → x ∉ s.UserDINodes

variable {s s' s'' : DebugInfoScanner Node}

variable {Reach Seeds : Set Node} {Users Users' Users'' : Finset Node}

theorem UserOf.mono (hsubset : Users ⊆ Users') {operand : Node}
    (h : g.UserOf ↑Users DIN operand) : g.UserOf ↑Users' DIN operand :=
  ⟨h.1, hsubset h.2⟩

theorem Finds.refl (Users : Finset Node) : g.Finds Reach Users Users :=
  ⟨Finset.Subset.refl _, fun x hx => ⟨x, hx, ReflTransGen.refl⟩, fun _ hx => Or.inl hx⟩

theorem Finds.trans (h : g.Finds Reach Users Users') (h' : g.Finds Reach Users' Users'') :
    g.Finds Reach Users Users'' := by
  refine ⟨h.subset.trans h'.subset, fun x hx => ?_, fun x hx => ?_⟩
  · obtain ⟨middle, hmiddle, hpath⟩ := h'.linked x hx
    obtain ⟨user, huser, hpath'⟩ := h.linked middle hmiddle
    have hold := ReflTransGen.mono (fun _ _ => UserOf.mono h'.subset) _ _ hpath'
    exact ⟨user, huser, hpath.trans hold⟩
  · exact (h'.within x hx).elim (h.within x) Or.inr

theorem Finds.sound (h : g.Finds Reach Users Users') {x : Node} (hx : x ∈ Users') :
    g.ReferencesTo ↑Users x := by
  obtain ⟨user, huser, hpath⟩ := h.linked x hx
  exact ⟨user, huser, ReflTransGen.mono (fun _ _ hstep => hstep.1) _ _ hpath⟩

theorem Passes.refl (s : DebugInfoScanner Node) : g.Passes s s :=
  ⟨rfl, Extends.refl _ _, fun _ hx hnot => absurd hx hnot⟩

theorem Passes.trans (h : g.Passes s s') (h' : g.Passes s' s'') : g.Passes s s'' := by
  refine ⟨h'.same.trans h.same, h.extend.trans h'.extend, fun x hx hnot => ?_⟩
  by_cases hmiddle : x ∈ s'.Visited
  · exact h.notUser x hmiddle hnot
  · rw [← h.same]
    exact h'.notUser x hx hmiddle

theorem Passes.finds (h : g.Passes s s') : g.Finds Reach s.UserDINodes s'.UserDINodes := by
  rw [h.same]
  exact Finds.refl _

/-- What a step of a round does: it only reports a change with a new user. -/
structure Advances (g : DebugInfo Node) (Reach : Set Node)
    (round round' : Bool × DebugInfoScanner Node) : Prop where
  finds : g.Finds Reach round.2.UserDINodes round'.2.UserDINodes
  changed : round.1 = true → round'.1 = true
  passes : round'.1 = false → g.Passes round.2 round'.2
  newUser : round.1 = false → round'.1 = true → ∃ x ∈ round'.2.UserDINodes, x ∉ round.2.UserDINodes

variable {round round' round'' : Bool × DebugInfoScanner Node}

theorem Advances.refl (round : Bool × DebugInfoScanner Node) : g.Advances Reach round round :=
  ⟨Finds.refl _, id, fun _ => Passes.refl _, fun h h' => by simp [h] at h'⟩

theorem Advances.trans (h : g.Advances Reach round round') (h' : g.Advances Reach round' round'') :
    g.Advances Reach round round'' := by
  have hsame (hnot : round''.1 = false) : round'.1 = false := by
    by_contra hne
    exact absurd (h'.changed (by simpa using hne)) (by simp [hnot])
  refine ⟨h.finds.trans h'.finds, fun hround => h'.changed (h.changed hround),
    fun hnot => (h.passes (hsame hnot)).trans (h'.passes hnot), fun hnot hround => ?_⟩
  cases hmiddle : round'.1 with
  | true =>
    obtain ⟨x, hx, hnew⟩ := h.newUser hnot hmiddle
    exact ⟨x, h'.finds.subset hx, hnew⟩
  | false =>
    obtain ⟨x, hx, hnew⟩ := h'.newUser hmiddle hround
    rw [(h.passes hmiddle).same] at hnew
    exact ⟨x, hx, hnew⟩

/-- A root that is seen without a change is a user or is visited. -/
def Seen (DIN : Node) (round : Bool × DebugInfoScanner Node) : Prop :=
  round.1 = false → DIN ∈ round.2.UserDINodes ∨ DIN ∈ round.2.Visited

theorem Seen.mono (hseen : Seen DIN round) (h : g.Advances Reach round round') :
    Seen DIN round' := by
  intro hnot
  have hround : round.1 = false := by
    by_contra hne
    exact absurd (h.changed (by simpa using hne)) (by simp [hnot])
  have hpasses := h.passes hnot
  rw [hpasses.same]
  exact (hseen hround).imp_right fun hmem => hpasses.extend.subset hmem

theorem not_referencesTo_of_unchanged
    {round : Bool × DebugInfoScanner Node} (h : g.Advances Reach (false, ⟨∅, UserDINodes⟩) round)
    (hround : round.1 = false) (hseen : Seen DIN round)
    (hUser : DIN ∉ round.2.UserDINodes) : ¬ g.ReferencesTo (↑round.2.UserDINodes) DIN := by
  have hpasses := h.passes hround
  have hextend := hpasses.extend
  rw [coe_empty] at hextend
  refine not_referencesTo_of_closed (fun x hx => hextend.closed_of_empty hx) (fun x hx => ?_)
    ((hseen hround).resolve_left hUser)
  rw [hpasses.same]
  exact hpasses.notUser x hx (notMem_empty x)

variable [DecidableEq Node]

section Scan

variable (g : DebugInfo Node)

/-- Whether a node references a user. -/
def process : Nat → DebugInfoScanner Node → Node → Option (Bool × DebugInfoScanner Node)
  | 0, _, _ => none
  | fuel + 1, s, DIN =>
    if DIN ∈ s.UserDINodes then some (true, s)
    else if DIN ∈ s.Visited then some (false, s)
    else do
      let (User, s) ←
        search (process fuel) { s with Visited := insert DIN s.Visited } (g.operands DIN)
      if User then some (true, { s with UserDINodes := insert DIN s.UserDINodes })
      else some (false, s)

/-- One step of the loop over the roots. -/
def processRoot (fuel : Nat) (round : Bool × DebugInfoScanner Node) (DIN : Node) :
    Option (Bool × DebugInfoScanner Node) :=
  if DIN ∈ round.2.UserDINodes then some round
  else do
    let (User, s) ← g.process fuel round.2 DIN
    some (round.1 || User, s)

/-- One round of the scan, and whether it found users. -/
def processRoots (fuel : Nat) (CurrentDINodes : List Node) (UserDINodes : Finset Node) :
    Option (Bool × DebugInfoScanner Node) :=
  CurrentDINodes.foldlM (g.processRoot fuel) (false, ⟨∅, UserDINodes⟩)

/-- Scan until the set does not change any more. -/
def scan (fuel : Nat) (CurrentDINodes : List Node) : Nat → Finset Node → Option (Finset Node)
  | 0, _ => none
  | rounds + 1, UserDINodes => do
    let (Changed, s) ← g.processRoots fuel CurrentDINodes UserDINodes
    if Changed then scan fuel CurrentDINodes rounds s.UserDINodes else some s.UserDINodes

end Scan

theorem Finds.insert_user {x : Node} (h : g.Finds Reach Users Users')
    (hx : x ∈ g.operands DIN) (hmem : x ∈ Users') (hDIN : DIN ∈ Reach) :
    g.Finds Reach Users (insert DIN Users') := by
  have hsubset := subset_insert DIN Users'
  refine ⟨h.subset.trans hsubset, fun y hy => ?_, fun y hy => ?_⟩
  · have hlinked (y : Node) (hy : y ∈ Users') :
        ∃ user ∈ Users, ReflTransGen (g.UserOf ↑(insert DIN Users')) y user := by
      obtain ⟨user, huser, hpath⟩ := h.linked y hy
      exact ⟨user, huser, ReflTransGen.mono (fun _ _ => UserOf.mono hsubset) _ _ hpath⟩
    rcases mem_insert.mp hy with heq | hy
    · obtain ⟨user, huser, hpath⟩ := hlinked x hmem
      rw [heq]
      exact ⟨user, huser, hpath.head ⟨hx, hsubset hmem⟩⟩
    · exact hlinked y hy
  · rcases mem_insert.mp hy with heq | hy
    · rw [heq]
      exact Or.inr hDIN
    · exact h.within y hy

theorem process_spec (hclosed : ∀ x ∈ Reach, x ∉ Seeds → g.next x ⊆ Reach) (fuel : Nat)
    (s : DebugInfoScanner Node) (DIN : Node) (hfuel : unseen g.nodes s.Visited < fuel)
    (hseeds : Seeds ⊆ ↑s.UserDINodes) (hreach : DIN ∈ Reach) :
    ∃ User s', g.process fuel s DIN = some (User, s') ∧
      (User = true → g.Finds Reach s.UserDINodes s'.UserDINodes ∧ DIN ∈ s'.UserDINodes) ∧
      (User = false → g.Passes s s' ∧ DIN ∈ s'.Visited) := by
  induction fuel generalizing s DIN with
  | zero => exact absurd hfuel (Nat.not_lt_zero _)
  | succ fuel ih =>
    unfold process
    by_cases hUser : DIN ∈ s.UserDINodes
    · exact ⟨true, s, if_pos hUser, fun _ => ⟨Finds.refl _, hUser⟩, by simp⟩
    by_cases hVisited : DIN ∈ s.Visited
    · refine ⟨false, s, ?_, by simp, fun _ => ⟨Passes.refl s, hVisited⟩⟩
      simp [hUser, hVisited]
    have hless := unseen_insert_lt (g.mem_nodes DIN) hVisited
    have hoperand : ∀ x ∈ g.operands DIN, ∀ t : DebugInfoScanner Node,
        (unseen g.nodes t.Visited < fuel ∧ t.UserDINodes = s.UserDINodes) →
        ∃ User t', g.process fuel t x = some (User, t') ∧
          (User = true → g.Finds Reach s.UserDINodes t'.UserDINodes ∧ x ∈ t'.UserDINodes) ∧
          (User = false → (unseen g.nodes t'.Visited < fuel ∧ t'.UserDINodes = s.UserDINodes) ∧
            g.Passes t t' ∧ x ∈ t'.Visited) := by
      intro x hx t ht
      have hnext : x ∈ Reach := hclosed DIN hreach (fun hmem => hUser (hseeds hmem)) hx
      obtain ⟨User, t', hprocess, htrue, hfalse⟩ := ih t x ht.1 (ht.2.symm ▸ hseeds) hnext
      refine ⟨User, t', hprocess, fun h => ?_, fun h => ?_⟩
      · rw [← ht.2]
        exact htrue h
      · obtain ⟨hpasses, hmem⟩ := hfalse h
        have hmono := unseen_mono g.nodes (coe_subset.mp hpasses.extend.subset)
        exact ⟨⟨by omega, hpasses.same.trans ht.2⟩, hpasses, hmem⟩
    obtain ⟨User, s', hsearch, htrue, hfalse⟩ := search_spec
      (R := g.Passes) (Q := fun x t => x ∈ t.Visited)
      Passes.refl (fun _ _ _ => Passes.trans) (fun x t t' h hx => h.extend.subset hx) hoperand
      (s := { s with Visited := insert DIN s.Visited })
      ⟨lt_of_lt_of_le hless (Nat.le_of_lt_succ hfuel), rfl⟩
    cases User with
    | true =>
      obtain ⟨x, hx, hfinds, hmem⟩ := htrue rfl
      refine ⟨true, { s' with UserDINodes := insert DIN s'.UserDINodes }, ?_,
        fun _ => ⟨hfinds.insert_user hx hmem hreach, mem_insert_self _ _⟩, by simp⟩
      simp [hUser, hVisited, hsearch]
    | false =>
      obtain ⟨-, hpasses, hall⟩ := hfalse rfl
      have hDIN : DIN ∈ s'.Visited := hpasses.extend.subset (mem_insert_self _ _)
      refine ⟨false, s', ?_, by simp, fun _ => ⟨⟨hpasses.same, ?_, fun y hy hnot => ?_⟩, hDIN⟩⟩
      · simp [hUser, hVisited, hsearch]
      · have hextend := hpasses.extend
        rw [coe_insert] at hextend
        exact hextend.visit fun x hx => hall x hx
      · by_cases heq : y = DIN
        · rw [heq]
          exact hUser
        · refine hpasses.notUser y hy fun hmem => ?_
          exact (mem_insert.mp hmem).elim heq hnot

theorem processRoot_spec (hclosed : ∀ x ∈ Reach, x ∉ Seeds → g.next x ⊆ Reach) {fuel : Nat}
    (hfuel : g.nodes.length < fuel) (round : Bool × DebugInfoScanner Node) (DIN : Node)
    (hseeds : Seeds ⊆ ↑round.2.UserDINodes) (hreach : DIN ∈ Reach) :
    ∃ round', g.processRoot fuel round DIN = some round' ∧ g.Advances Reach round round' ∧
      Seen DIN round' := by
  unfold processRoot
  by_cases hUser : DIN ∈ round.2.UserDINodes
  · exact ⟨round, if_pos hUser, Advances.refl round, fun _ => Or.inl hUser⟩
  have hunseen : unseen g.nodes round.2.Visited < fuel :=
    lt_of_le_of_lt (List.length_filter_le _ _) hfuel
  obtain ⟨User, s', hprocess, htrue, hfalse⟩ := 
    process_spec hclosed fuel round.2 DIN hunseen hseeds hreach
  refine ⟨(round.1 || User, s'), by simp [hUser, hprocess], ?_⟩
  cases User with
  | true =>
    obtain ⟨hfinds, hmem⟩ := htrue rfl
    refine ⟨⟨hfinds, by simp, by simp, fun _ _ => ⟨DIN, hmem, hUser⟩⟩, ?_⟩
    intro h
    simp at h
  | false =>
    obtain ⟨hpasses, hmem⟩ := hfalse rfl
    refine ⟨⟨hpasses.finds, by simp, fun _ => hpasses, fun h h' => ?_⟩, fun _ => Or.inr hmem⟩
    simp [h] at h'

theorem processRoots_spec (hclosed : ∀ x ∈ Reach, x ∉ Seeds → g.next x ⊆ Reach) {fuel : Nat}
    (hfuel : g.nodes.length < fuel) {CurrentDINodes : List Node}
    (hroots : ∀ DIN ∈ CurrentDINodes, DIN ∈ Reach)
    (hseeds : Seeds ⊆ ↑UserDINodes) :
    ∃ round, g.processRoots fuel CurrentDINodes UserDINodes = some round ∧
      g.Advances Reach (false, ⟨∅, UserDINodes⟩) round ∧
      ∀ DIN ∈ CurrentDINodes, Seen DIN round := by
  obtain ⟨round, hround, -, hadvances, hseen⟩ := foldlM_spec
    (P := fun round => Seeds ⊆ ↑round.2.UserDINodes) (Q := Seen)
    Advances.refl (fun _ _ _ => Advances.trans) (fun _ _ _ h h' => Seen.mono h' h)
    (fun DIN (hDIN : DIN ∈ CurrentDINodes) round hseeds => by
      obtain ⟨round', hround', hadvances, hseen⟩ :=
        processRoot_spec hclosed hfuel round DIN hseeds (hroots DIN hDIN)
      have hsubset := coe_subset.mpr hadvances.finds.subset
      exact ⟨round', hround', hseeds.trans hsubset, hadvances, hseen⟩)
    (s := (false, ⟨∅, UserDINodes⟩)) hseeds
  exact ⟨round, hround, hadvances, hseen⟩

theorem unseen_lt_of_changed {round : Bool × DebugInfoScanner Node}
    (h : g.Advances Reach (false, ⟨∅, UserDINodes⟩) round) (hround : round.1 = true) :
    unseen g.nodes round.2.UserDINodes < unseen g.nodes UserDINodes := by
  obtain ⟨x, hx, hnew⟩ := h.newUser rfl hround
  have hsubset : insert x UserDINodes ⊆ round.2.UserDINodes :=
    insert_subset hx h.finds.subset
  exact lt_of_le_of_lt (unseen_mono g.nodes hsubset) (unseen_insert_lt (g.mem_nodes x) hnew)

theorem scan_spec (hclosed : ∀ x ∈ Reach, x ∉ Seeds → g.next x ⊆ Reach) {fuel : Nat}
    (hfuel : g.nodes.length < fuel) {CurrentDINodes : List Node}
    (hroots : ∀ DIN ∈ CurrentDINodes, DIN ∈ Reach) (rounds : Nat) (UserDINodes : Finset Node)
    (hseeds : Seeds ⊆ ↑UserDINodes) (hrounds : unseen g.nodes UserDINodes < rounds) :
    ∃ Users, g.scan fuel CurrentDINodes rounds UserDINodes = some Users ∧
      g.Finds Reach UserDINodes Users ∧
      ∀ DIN ∈ CurrentDINodes, g.ReferencesTo (↑Users) DIN → DIN ∈ Users := by
  induction rounds generalizing UserDINodes with
  | zero => exact absurd hrounds (Nat.not_lt_zero _)
  | succ rounds ih =>
    obtain ⟨round, hround, hadvances, hseen⟩ := processRoots_spec hclosed hfuel hroots hseeds
    cases hchanged : round.1 with
    | false =>
      refine ⟨round.2.UserDINodes, ?_, hadvances.finds, fun DIN hDIN href => ?_⟩
      · simp [scan, hround, hchanged]
      · by_contra hUser
        exact not_referencesTo_of_unchanged hadvances hchanged (hseen DIN hDIN) hUser href
    | true =>
      have hless := unseen_lt_of_changed hadvances hchanged
      have hsubset := coe_subset.mpr hadvances.finds.subset
      obtain ⟨Users, hscan, hfinds, hcomplete⟩ := ih round.2.UserDINodes
        (hseeds.trans hsubset) (lt_of_lt_of_le hless (Nat.le_of_lt_succ hrounds))
      refine ⟨Users, ?_, hadvances.finds.trans hfinds, hcomplete⟩
      simp [scan, hround, hchanged, hscan]

/-- The scan ends, and it finds just the roots that reference a seed. -/
theorem scan_exact {fuel rounds : Nat} (hfuel : g.nodes.length < fuel)
    (hrounds : g.nodes.length < rounds) (CurrentDINodes : List Node) (Seeds : Finset Node) :
    ∃ UserDINodes, g.scan fuel CurrentDINodes rounds Seeds = some UserDINodes ∧
      (∀ DIN ∈ CurrentDINodes, DIN ∈ UserDINodes ↔ g.ReferencesTo (↑Seeds) DIN) ∧
      ∀ DIN ∈ UserDINodes, g.ReferencesTo (↑Seeds) DIN := by
  have hunseen : unseen g.nodes Seeds < rounds :=
    lt_of_le_of_lt (List.length_filter_le _ _) hrounds
  have hclosed : ∀ x ∈ (Set.univ : Set Node), x ∉ (↑Seeds : Set Node) → g.next x ⊆ Set.univ :=
    fun x _ _ => Set.subset_univ _
  obtain ⟨UserDINodes, hscan, hfinds, hcomplete⟩ := scan_spec hclosed hfuel
    (fun DIN _ => Set.mem_univ DIN) rounds Seeds Set.Subset.rfl hunseen
  refine ⟨UserDINodes, hscan, fun DIN hDIN => ⟨hfinds.sound, fun href => ?_⟩,
    fun DIN hDIN => hfinds.sound hDIN⟩
  exact hcomplete DIN hDIN (ReferencesTo.mono (coe_subset.mpr hfinds.subset) href)

/-- A class, a member of it, and the basic type of the member. -/
inductive MemberNode
  | holder | field | basic
  deriving DecidableEq

/-- The class and its member reference each other. -/
def memberOfClass : DebugInfo MemberNode where
  node
    | .holder => .DICompositeType none none [some .field] none []
    | .field => .DIDerivedType (some .holder) (some .basic) false none
    | .basic => .DIBasicType none
  nodes := [.holder, .field, .basic]
  mem_nodes DIN := by cases DIN <;> simp

/-- The class and its member are users of the basic type. -/
theorem scan_exact_memberOfClass :
    ∃ UserDINodes, memberOfClass.scan 4 [.holder] 4 {.basic} = some UserDINodes ∧
      (∀ DIN ∈ [MemberNode.holder],
        DIN ∈ UserDINodes ↔ memberOfClass.ReferencesTo (↑({.basic} : Finset MemberNode)) DIN) ∧
      ∀ DIN ∈ UserDINodes, memberOfClass.ReferencesTo (↑({.basic} : Finset MemberNode)) DIN :=
  scan_exact (g := memberOfClass) (by decide) (by decide) [MemberNode.holder] {MemberNode.basic}

end DebugInfo

end Zapcc.Unload
